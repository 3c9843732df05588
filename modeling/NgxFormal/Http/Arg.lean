import NgxFormal.Basic
import NgxFormal.Lib.Links

/-! `ngx_http_arg`: an argument of the query string, found by a search for its name.

Pointers into `r->args` are indices; a read outside the string has no value, and so has the
call that makes it. -/

namespace NgxFormal.Http.Arg

/-- `ngx_strncasecmp(s1, s2, n)` with `s1` in the arguments and `s2` in the name. -/
def ngxStrncasecmp (args name : List UInt8) : Nat → Nat → Nat → Option Int
  | 0, _, _ => some 0
  | n + 1, s1, s2 =>
    args[s1]?.bind fun b1 =>
      name[s2]?.bind fun b2 =>
        let c1 := ngxTolower b1
        let c2 := ngxTolower b2
        if c1 = c2 then
          if c1 ≠ 0 then ngxStrncasecmp args name n (s1 + 1) (s2 + 1) else some 0
        else some (c1.toNat - c2.toNat)

/-- Both loops of `ngx_strlcasestrn(s1, last, s2, n)`. The counter is `last - n - s1`; at zero
or below the source returns `NULL`. -/
def strlcasestrn (args name : List UInt8) (n : Nat) : Nat → Nat → Option (Option Nat)
  | 0, _ => some none
  | left + 1, s1 =>
    args[s1]?.bind fun b1 =>
      name[0]?.bind fun b2 =>
        if ngxTolower b1 ≠ ngxTolower b2 then strlcasestrn args name n left (s1 + 1)
        else
          (ngxStrncasecmp args name n (s1 + 1) 1).bind fun order =>
            if order ≠ 0 then strlcasestrn args name n left (s1 + 1)
            else some (some s1)

def ngxStrlcasestrn (args name : List UInt8) (s1 last n : Nat) : Option (Option Nat) :=
  strlcasestrn args name n (last - n - s1) s1

/-- `ngx_strlchr(p, last, c)`, with `last - p` as the counter. -/
def strlchr (args : List UInt8) (c : UInt8) : Nat → Nat → Option (Option Nat)
  | 0, _ => some none
  | left + 1, p =>
    args[p]?.bind fun b => if b = c then some (some p) else strlchr args c left (p + 1)

def ngxStrlchr (args : List UInt8) (p last : Nat) (c : UInt8) : Option (Option Nat) :=
  strlchr args c (last - p) p

/-- `NGX_OK` with the place and the length of the value. -/
inductive Result where
  | ok (data len : Nat)
  | declined
  deriving DecidableEq, Repr

/-- The loop of `ngx_http_arg` from `p` on. Its fuel is never spent: `p` grows. -/
def argLoop (args name : List UInt8) : Nat → Nat → Option Result
  | 0, _ => none
  | fuel + 1, p =>
    if p < args.length then
      (ngxStrlcasestrn args name p (args.length - 1) (name.length - 1)).bind fun found =>
        match found with
        | none => some .declined
        | some p =>
          -- p == r->args.data || *(p - 1) == '&'
          (if p = 0 then some true else args[p - 1]?.map (· == chr '&')).bind fun starts =>
            (if starts then args[p + name.length]?.map (· == chr '=')
              else some false).bind fun hit =>
              if hit then
                (ngxStrlchr args p args.length (chr '&')).map fun stop =>
                  let data := p + name.length + 1
                  .ok data (stop.getD args.length - data)
              else argLoop args name fuel (p + 1)
    else some .declined

def ngxHttpArg (args name : List UInt8) : Option Result :=
  if args.length = 0 then some .declined
  else argLoop args name (args.length + 1) 0

/-- The value that one component gives to the argument. -/
def component (name part : List UInt8) : Option (List UInt8) :=
  if (part.takeWhile (· ≠ chr '=')).map ngxTolower = name.map ngxTolower ∧ chr '=' ∈ part then
    some (part.dropWhile (· ≠ chr '=')).tail
  else none

def lookup (args name : List UInt8) : Option (List UInt8) :=
  (args.splitOn (chr '&')).findSome? (component name)

/-- The name, in either case, stands at `p` and is followed by one more byte. -/
def NameAt (args name : List UInt8) (p : Nat) : Prop :=
  p + name.length < args.length ∧
    ((args.drop p).take name.length).map ngxTolower = name.map ngxTolower

theorem tolower_mark (b : UInt8) :
    (ngxTolower b = 0 ↔ b = 0) ∧ (ngxTolower b = chr '&' ↔ b = chr '&') ∧
      (ngxTolower b = chr '=' ↔ b = chr '=') := by
  refine byte_table b ?_
  decide +kernel

theorem mark_mem_iff {first second : List UInt8}
    (same : first.map ngxTolower = second.map ngxTolower) :
    (chr '&' ∈ first ↔ chr '&' ∈ second) ∧ (chr '=' ∈ first ↔ chr '=' ∈ second) := by
  have lowered (mark : UInt8) (fixed : ∀ b, ngxTolower b = mark ↔ b = mark)
      (text : List UInt8) : mark ∈ text ↔ mark ∈ text.map ngxTolower := by
    rw [List.mem_map]
    constructor
    · intro member
      exact ⟨mark, member, (fixed mark).mpr rfl⟩
    · rintro ⟨b, member, low⟩
      exact (fixed b).mp low ▸ member
  constructor
  · rw [lowered (chr '&') (fun b => (tolower_mark b).2.1), same, ← lowered (chr '&')
      (fun b => (tolower_mark b).2.1)]
  · rw [lowered (chr '=') (fun b => (tolower_mark b).2.2), same, ← lowered (chr '=')
      (fun b => (tolower_mark b).2.2)]

/-- The comparison stays inside both strings, and without a NUL it compares all `n` bytes. -/
theorem ngxStrncasecmp_spec (args name : List UInt8) (clear : 0 ∉ args) (n s1 s2 : Nat)
    (room : s1 + n ≤ args.length) (room' : s2 + n ≤ name.length) :
    ∃ order, ngxStrncasecmp args name n s1 s2 = some order ∧
      (order = 0 ↔ ((args.drop s1).take n).map ngxTolower =
        ((name.drop s2).take n).map ngxTolower) := by
  induction n generalizing s1 s2 with
  | zero => exact ⟨0, rfl, by simp⟩
  | succ n ih =>
    have inside : s1 < args.length := by omega
    have inside' : s2 < name.length := by omega
    have nul : ngxTolower args[s1] ≠ 0 := by
      rw [ne_eq, (tolower_mark _).1]
      intro zero
      exact clear (zero ▸ List.getElem_mem inside)
    obtain ⟨order, compared, exact⟩ := ih (s1 + 1) (s2 + 1) (by omega) (by omega)
    rw [ngxStrncasecmp, List.getElem?_eq_getElem inside, List.getElem?_eq_getElem inside',
      Option.bind_some, Option.bind_some, List.drop_eq_getElem_cons inside,
      List.drop_eq_getElem_cons inside', List.take_succ_cons, List.take_succ_cons,
      List.map_cons, List.map_cons, List.cons.injEq]
    dsimp only
    by_cases same : ngxTolower args[s1] = ngxTolower name[s2]
    · rw [if_pos same, if_pos nul, compared]
      exact ⟨order, rfl, by rw [exact]; simp [same]⟩
    · rw [if_neg same]
      refine ⟨_, rfl, iff_of_false (fun zero => same ?_) (fun both => same both.1)⟩
      apply UInt8.toNat_inj.mp
      omega

/-- The search stays inside the arguments and finds the first place of the name from `s1` on:
induction on the places that are left. -/
theorem strlcasestrn_spec (args name : List UInt8) (clear : 0 ∉ args) (named : name ≠ [])
    (left s1 : Nat) (count : args.length - 1 - (name.length - 1) - s1 = left) :
    (strlcasestrn args name (name.length - 1) left s1 = some none ∧
        ∀ s, s1 ≤ s → ¬ NameAt args name s) ∨
      ∃ q, strlcasestrn args name (name.length - 1) left s1 = some (some q) ∧ s1 ≤ q ∧
        NameAt args name q ∧ ∀ s, s1 ≤ s → s < q → ¬ NameAt args name s := by
  have long := List.length_pos_iff.mpr named
  induction left generalizing s1 with
  | zero =>
    refine Or.inl ⟨rfl, fun s le found => ?_⟩
    have room := found.1
    omega
  | succ left ih =>
    have inside : s1 < args.length := by omega
    obtain ⟨order, compared, exact⟩ := ngxStrncasecmp_spec args name clear (name.length - 1)
      (s1 + 1) 1 (by omega) (by omega)
    have here : NameAt args name s1 ↔ ngxTolower args[s1] = ngxTolower name[0] ∧ order = 0 := by
      have split : name = name[0] :: name.drop 1 := by
        have cons := List.drop_eq_getElem_cons long
        rwa [List.drop_zero] at cons
      have width : name.length = (name.length - 1) + 1 := by omega
      have rest : (name.drop 1).take (name.length - 1) = name.drop 1 :=
        List.take_of_length_le (by rw [List.length_drop])
      rw [exact, rest, NameAt, and_iff_right (by omega), List.drop_eq_getElem_cons inside]
      conv_lhs => rw [width, List.take_succ_cons, split]
      rw [List.map_cons, List.map_cons, List.cons.injEq]
      simp
    have later := ih (s1 + 1) (by omega)
    have step : strlcasestrn args name (name.length - 1) (left + 1) s1 =
        if ngxTolower args[s1] = ngxTolower name[0] ∧ order = 0 then some (some s1)
        else strlcasestrn args name (name.length - 1) left (s1 + 1) := by
      rw [strlcasestrn, List.getElem?_eq_getElem inside, List.getElem?_eq_getElem long,
        Option.bind_some, Option.bind_some, compared, Option.bind_some]
      by_cases same : ngxTolower args[s1] = ngxTolower name[0]
      · by_cases zero : order = 0
        · simp [same, zero]
        · simp [same, zero]
      · simp [same]
    rw [step]
    by_cases hit : ngxTolower args[s1] = ngxTolower name[0] ∧ order = 0
    · rw [if_pos hit]
      exact Or.inr ⟨s1, rfl, le_refl s1, here.mpr hit, fun s le less => absurd le (by omega)⟩
    · rw [if_neg hit]
      have missed : ¬ NameAt args name s1 := fun found => hit (here.mp found)
      rcases later with ⟨none, clear⟩ | ⟨q, found, le, named, clear⟩
      · refine Or.inl ⟨none, fun s le => ?_⟩
        rcases Nat.eq_or_lt_of_le le with rfl | more
        · exact missed
        · exact clear s more
      · refine Or.inr ⟨q, found, by omega, named, fun s le less => ?_⟩
        rcases Nat.eq_or_lt_of_le le with rfl | more
        · exact missed
        · exact clear s more less

theorem strlchr_spec (args : List UInt8) (c : UInt8) (left p : Nat)
    (count : args.length - p = left) (inside : p ≤ args.length) :
    ∃ found, strlchr args c left p = some found ∧
      found.getD args.length = p + ((args.drop p).takeWhile (· ≠ c)).length := by
  induction left generalizing p with
  | zero =>
    have whole : p = args.length := by omega
    refine ⟨none, rfl, ?_⟩
    rw [whole, List.drop_length]
    rfl
  | succ left ih =>
    have inner : p < args.length := by omega
    rw [strlchr, List.getElem?_eq_getElem inner, Option.bind_some,
      List.drop_eq_getElem_cons inner]
    by_cases same : args[p] = c
    · rw [if_pos same, List.takeWhile_cons_of_neg (by simpa using same)]
      exact ⟨some p, rfl, rfl⟩
    · obtain ⟨found, searched, place⟩ := ih (p + 1) (by omega) (by omega)
      rw [if_neg same, searched, List.takeWhile_cons_of_pos (by simpa using same)]
      refine ⟨found, rfl, ?_⟩
      rw [place, List.length_cons]
      omega

/-- The value at the front of `text`, if the argument and `=` stand there. -/
def opening (name text : List UInt8) : Option (List UInt8) :=
  component name (text.takeWhile (· ≠ chr '&'))

/-- The first component of a text that gives a value; the component that the text begins in
the middle of does not count unless `start` is set. -/
def firstValue (name : List UInt8) : Bool → List UInt8 → Option (List UInt8)
  | _, [] => none
  | start, ch :: text =>
    (if start then opening name (ch :: text) else none).or
      (firstValue name (ch = chr '&') text)

theorem component_nil (name : List UInt8) : component name [] = none := by simp [component]

/-- `firstValue` is the lookup by components. -/
theorem firstValue_eq (name text : List UInt8) :
    firstValue name true text = lookup text name ∧
      firstValue name false text =
        (text.splitOn (chr '&')).tail.findSome? (component name) := by
  induction text with
  | nil => exact ⟨by simp [firstValue, lookup, component_nil], by simp [firstValue]⟩
  | cons ch text ih =>
    have rest : firstValue name (ch = chr '&') text =
        ((ch :: text).splitOn (chr '&')).tail.findSome? (component name) := by
      rw [Lib.Segments.tail_splitOn_cons]
      by_cases mark : ch = chr '&'
      · rw [if_pos mark, decide_eq_true mark, ih.1, lookup]
      · rw [if_neg mark, decide_eq_false mark, ih.2]
    constructor
    · rw [firstValue, rest, lookup, Lib.Segments.splitOn_eq_first, List.tail_cons,
        List.findSome?_cons, if_pos rfl, opening]
      cases component name ((ch :: text).takeWhile (· ≠ chr '&')) with
      | none => rw [Option.none_or]
      | some value => rw [Option.some_or]
    · rw [firstValue, rest]
      simp

theorem component_split (name first value : List UInt8) (clear : chr '=' ∉ first) :
    component name (first ++ chr '=' :: value) =
      if first.map ngxTolower = name.map ngxTolower then some value else none := by
  rw [component, Lib.Segments.takeWhile_append_mark first value clear,
    Lib.Segments.dropWhile_append_mark first value clear]
  simp

/-- The argument stands in front of a text when its name and `=` do, and its value then ends
before the next `&`. -/
theorem opening_eq (name text : List UInt8) (amp : chr '&' ∉ name) (eq : chr '=' ∉ name) :
    opening name text =
      if (text.take name.length).map ngxTolower = name.map ngxTolower ∧
          text[name.length]? = some (chr '=') then
        some ((text.drop (name.length + 1)).takeWhile (· ≠ chr '&'))
      else none := by
  split_ifs with here
  · obtain ⟨same, mark⟩ := here
    obtain ⟨inside, value⟩ := List.getElem?_eq_some_iff.mp mark
    have split : text = text.take name.length ++ chr '=' :: text.drop (name.length + 1) := by
      conv_lhs => rw [← List.take_append_drop name.length text,
        List.drop_eq_getElem_cons inside, value]
    have clear := mark_mem_iff same
    have plain : ∀ b ∈ text.take name.length, decide (b ≠ chr '&') = true := by
      intro b member
      exact decide_eq_true fun hit => amp (clear.1.mp (hit ▸ member))
    rw [opening]
    conv_lhs => rw [split]
    rw [List.takeWhile_append_of_pos plain, List.takeWhile_cons_of_pos (by decide),
      component_split name _ _ (fun member => eq (clear.2.mp member)), if_pos same]
  · rw [opening, component, if_neg]
    rintro ⟨same, member⟩
    apply here
    obtain ⟨first, value, part, clear⟩ := List.eq_append_cons_of_mem member
    rw [part, Lib.Segments.takeWhile_append_mark first value clear] at same
    have width : first.length = name.length := by simpa using congrArg List.length same
    obtain ⟨rest, whole⟩ : first ++ chr '=' :: value <+: text := part ▸ List.takeWhile_prefix _
    rw [← whole, List.append_assoc, List.take_left' width, ← width]
    exact ⟨same, by simp⟩

/-- The position lies at the start of a component. -/
def Starts (args : List UInt8) (p : Nat) : Bool :=
  p = 0 || args[p - 1]? == some (chr '&')

/-- A place that no component starts at, or that has not the name and `=`, gives no value. -/
theorem firstValue_skip (args name : List UInt8) (amp : chr '&' ∉ name) (eq : chr '=' ∉ name)
    (p : Nat) (inside : p < args.length)
    (missed : ¬ (Starts args p = true ∧ NameAt args name p ∧
      args[p + name.length]? = some (chr '='))) :
    firstValue name (Starts args p) (args.drop p) =
      firstValue name (Starts args (p + 1)) (args.drop (p + 1)) := by
  have next : Starts args (p + 1) = decide (args[p] = chr '&') := by
    simp [Starts, List.getElem?_eq_getElem inside, beq_eq_decide]
  have shut : (if Starts args p then opening name (args.drop p) else none) = none := by
    by_cases start : Starts args p = true
    · rw [if_pos start, opening_eq name _ amp eq, if_neg]
      rintro ⟨same, mark⟩
      apply missed
      rw [List.getElem?_drop] at mark
      obtain ⟨room, _⟩ := List.getElem?_eq_some_iff.mp mark
      exact ⟨start, ⟨room, same⟩, mark⟩
    · rw [if_neg start]
  rw [next, List.drop_eq_getElem_cons inside, firstValue, ← List.drop_eq_getElem_cons inside,
    shut, Option.none_or]

theorem firstValue_skips (args name : List UInt8) (amp : chr '&' ∉ name) (eq : chr '=' ∉ name)
    (count p : Nat) (inside : p + count ≤ args.length)
    (missed : ∀ s, p ≤ s → s < p + count → ¬ NameAt args name s) :
    firstValue name (Starts args p) (args.drop p) =
      firstValue name (Starts args (p + count)) (args.drop (p + count)) := by
  induction count with
  | zero => rfl
  | succ count ih =>
    rw [ih (by omega) (fun s le less => missed s le (by omega)),
      firstValue_skip args name amp eq (p + count) (by omega)
        (fun hit => missed (p + count) (by omega) (by omega) hit.2.1)]
    rfl

def Gives (args : List UInt8) (value : Option (List UInt8)) : Result → Prop
  | .ok data len => data + len ≤ args.length ∧ value = some ((args.drop data).take len)
  | .declined => value = none

theorem argLoop_hit (args name : List UInt8) (amp : chr '&' ∉ name) (eq : chr '=' ∉ name)
    (q : Nat) (here : NameAt args name q) (start : Starts args q = true)
    (mark : args[q + name.length]? = some (chr '=')) :
    ∃ stop, ngxStrlchr args q args.length (chr '&') = some stop ∧
      Gives args (firstValue name (Starts args q) (args.drop q))
        (.ok (q + name.length + 1) (stop.getD args.length - (q + name.length + 1))) := by
  obtain ⟨room, same⟩ := here
  obtain ⟨stop, searched, place⟩ := strlchr_spec args (chr '&') _ q rfl (by omega)
  refine ⟨stop, searched, ?_⟩
  have inside : q < args.length := by omega
  obtain ⟨_, value⟩ := List.getElem?_eq_some_iff.mp mark
  have split : args.drop q = (args.drop q).take name.length ++
      chr '=' :: args.drop (q + name.length + 1) := by
    conv_lhs => rw [← List.take_append_drop name.length (args.drop q), List.drop_drop,
      List.drop_eq_getElem_cons room, value]
  have clear := mark_mem_iff same
  have plain : ∀ b ∈ (args.drop q).take name.length, decide (b ≠ chr '&') = true := by
    intro b member
    exact decide_eq_true fun hit => amp (clear.1.mp (hit ▸ member))
  have width : ((args.drop q).take name.length).length = name.length := by
    rw [List.length_take, List.length_drop]
    omega
  have reach : stop.getD args.length - (q + name.length + 1) =
      ((args.drop (q + name.length + 1)).takeWhile (· ≠ chr '&')).length := by
    rw [place, split, List.takeWhile_append_of_pos plain, List.takeWhile_cons_of_pos (by decide),
      List.length_append, width, List.length_cons]
    omega
  have value_eq : firstValue name (Starts args q) (args.drop q) =
      some ((args.drop (q + name.length + 1)).takeWhile (· ≠ chr '&')) := by
    rw [List.drop_eq_getElem_cons inside, firstValue, ← List.drop_eq_getElem_cons inside,
      if_pos start, opening_eq name _ amp eq, if_pos, Option.some_or, List.drop_drop,
      Nat.add_assoc]
    exact ⟨same, by rw [List.getElem?_drop, mark]⟩
  have front : (args.drop (q + name.length + 1)).takeWhile (· ≠ chr '&') <+:
      args.drop (q + name.length + 1) := List.takeWhile_prefix _
  rw [value_eq, reach]
  refine ⟨?_, ?_⟩
  · have short := front.length_le
    rw [List.length_drop] at short
    omega
  · rw [← List.prefix_iff_eq_take.mp front]

/-- From `p` on the loop finds the first value, and reads nothing outside the arguments. -/
theorem argLoop_spec (args name : List UInt8) (clear : 0 ∉ args) (named : name ≠ [])
    (amp : chr '&' ∉ name) (eq : chr '=' ∉ name) (fuel p : Nat) (inside : p ≤ args.length)
    (enough : args.length - p < fuel) :
    ∃ result, argLoop args name fuel p = some result ∧
      Gives args (firstValue name (Starts args p) (args.drop p)) result := by
  induction fuel generalizing p with
  | zero => omega
  | succ fuel ih =>
    rw [argLoop]
    by_cases more : p < args.length
    · rw [if_pos more, ngxStrlcasestrn]
      rcases strlcasestrn_spec args name clear named _ p rfl with
        ⟨none, missed⟩ | ⟨q, found, le, here, missed⟩
      · rw [none]
        refine ⟨.declined, rfl, ?_⟩
        rw [Gives, firstValue_skips args name amp eq (args.length - p) p (by omega)
          (fun s le _ => missed s le), Nat.add_sub_cancel' inside, List.drop_length]
        rfl
      · have within : q < args.length := by
          have room := here.1
          omega
        have skipped := firstValue_skips args name amp eq (q - p) p (by omega)
          (fun s le less => missed s le (by omega))
        rw [Nat.add_sub_cancel' le] at skipped
        have starts : (if q = 0 then some true else args[q - 1]?.map (· == chr '&')) =
            some (Starts args q) := by
          by_cases first : q = 0
          · simp [first, Starts]
          · have before : q - 1 < args.length := by omega
            simp [first, Starts, List.getElem?_eq_getElem before]
        rw [found, skipped, Option.bind_some]
        dsimp only
        rw [starts, Option.bind_some]
        by_cases hit : Starts args q = true ∧ args[q + name.length]? = some (chr '=')
        · obtain ⟨stop, searched, gives⟩ :=
            argLoop_hit args name amp eq q here hit.1 hit.2
          refine ⟨_, ?_, gives⟩
          simp [hit.1, hit.2, searched]
        · have passed := firstValue_skip args name amp eq q within
            (fun both => hit ⟨both.1, both.2.2⟩)
          have test : (if Starts args q then
              args[q + name.length]?.map (· == chr '=') else some false) = some false := by
            rw [List.getElem?_eq_getElem here.1] at hit ⊢
            by_cases start : Starts args q = true
            · simpa [start] using hit
            · simp [start]
          rw [test, Option.bind_some, if_neg Bool.false_ne_true, passed]
          exact ih (q + 1) (by omega) (by omega)
    · have whole : p = args.length := by omega
      rw [if_neg more]
      refine ⟨.declined, rfl, ?_⟩
      rw [whole, List.drop_length]
      rfl

/-- The search returns the value of the first component that has the name in front of its
first `=`, in either case, and it reads only bytes of the query string. -/
theorem http_arg_first_component (args name : List UInt8) (clear : 0 ∉ args) (named : name ≠ [])
    (amp : chr '&' ∉ name) (eq : chr '=' ∉ name) :
    ∃ result, ngxHttpArg args name = some result ∧ Gives args (lookup args name) result := by
  rw [ngxHttpArg, ← (firstValue_eq name args).1]
  by_cases empty : args.length = 0
  · rw [if_pos empty, List.length_eq_zero_iff.mp empty]
    exact ⟨.declined, rfl, rfl⟩
  · rw [if_neg empty]
    exact argLoop_spec args name clear named amp eq _ 0 (Nat.zero_le _) (by omega)

/-- `sa=1&A=2=&a=3` and the name `a`: the second component gives `2=`. -/
theorem http_arg_second :
    ∃ args name : List UInt8, ((0 ∉ args ∧ name ≠ []) ∧ chr '&' ∉ name ∧ chr '=' ∉ name) ∧
      ngxHttpArg args name = some (.ok 7 2) ∧
      ∃ result, ngxHttpArg args name = some result ∧ Gives args (lookup args name) result :=
  ⟨[chr 's', chr 'a', chr '=', chr '1', chr '&', chr 'A', chr '=', chr '2', chr '=', chr '&',
      chr 'a', chr '=', chr '3'], [chr 'a'], by decide, by decide,
    http_arg_first_component _ _ (by decide) (by decide) (by decide) (by decide)⟩

end NgxFormal.Http.Arg
