import NgxFormal.Http.Userid

/-! The elements of headers that `ngx_http_parse_multi_header_lines` looks at. -/

namespace NgxFormal.Http.Userid

open Core Core.Times

/-- The loop over a header, with `value->data`; `value->len` ends at the next `';'`. -/
def headerData (name : List UInt8) : Nat → List UInt8 → Option (List UInt8)
  | 0, _ => none
  | _ + 1, [] => none
  | fuel + 1, ch :: start =>
    if ngxStrncasecmp name.length (ch :: start) name ≠ 0 then
      headerData name fuel (skipHeader (ch :: start))
    else
      match skipSpaces ((ch :: start).drop name.length) with
      | [] => none
      | eq :: start => if eq ≠ chr '=' then headerData name fuel (skipHeader start) else some (skipSpaces start)

/-- `ngx_http_parse_multi_header_lines` from `i` on, with the index and `value->data`. -/
def multiHeaderData (name : List UInt8) : Nat → List (List UInt8) → Option (Nat × List UInt8)
  | _, [] => none
  | i, h :: headers =>
    if h.length < name.length then multiHeaderData name (i + 1) headers
    else ((headerData name h.length h).map (i, ·)).or (multiHeaderData name (i + 1) headers)

theorem skipHeader_length (ch : UInt8) (start : List UInt8) : (skipHeader (ch :: start)).length ≤ start.length := by
  induction start generalizing ch with
  | nil =>
    rw [skipHeader]
    split
    · exact Nat.le_refl _
    · exact Nat.le_refl _
  | cons c start ih =>
    rw [skipHeader]
    split
    · exact skipSpaces_length _
    · exact (ih c).trans (Nat.le_succ _)

/-- The elements of a header, each with what is behind it. -/
def elements : List UInt8 → List (List UInt8)
  | [] => []
  | ch :: start => (ch :: start) :: elements (skipHeader (ch :: start))
termination_by text => text.length
decreasing_by exact Nat.lt_succ_of_le (skipHeader_length ch start)

/-- The name in any case, optional spaces, `'='`, and a rest from its first byte that is no space on. -/
def elementData (name element : List UInt8) : Option (List UInt8) :=
  if (element.take name.length).map ngxTolower = name.map ngxTolower then
    match skipSpaces (element.drop name.length) with
    | [] => none
    | eq :: data => if eq = chr '=' then some (skipSpaces data) else none
  else none

/-- The first element of a header with the name. -/
def named (name h : List UInt8) : Option (List UInt8) := (elements (skipSpaces h)).findSome? (elementData name)

/-- The first header with such an element. -/
def namedData (name : List UInt8) : Nat → List (List UInt8) → Option (Nat × List UInt8)
  | _, [] => none
  | i, h :: headers => ((named name h).map (i, ·)).or (namedData name (i + 1) headers)

/-- The name alone, in front of another element. -/
def bare (name element : List UInt8) : Bool :=
  (element.take name.length).map ngxTolower = name.map ngxTolower ∧
    ((skipSpaces (element.drop name.length)).head? = some (chr ';') ∨
      (skipSpaces (element.drop name.length)).head? = some (chr ','))

/-- The first element with the name is not passed; one behind a bare name is, and the first one if `pass` is set. -/
def seen (name : List UInt8) : Bool → List (List UInt8) → Bool
  | _, [] => true
  | pass, element :: rest =>
    if (elementData name element).isSome then !pass else seen name (!pass && bare name element) rest

/-- So it is in the first header that has one; a header that starts with a space has its first element passed. -/
def firstSeen (name : List UInt8) : List (List UInt8) → Bool
  | [] => true
  | h :: headers =>
    if (named name h).isSome then seen name (h.head? = some (chr ' ')) (elements (skipSpaces h))
    else firstSeen name headers

section Elements

variable {name text rest start data : List UInt8} {fuel : Nat}

theorem skipHeader_append (whole : ∀ ch ∈ text, ch ≠ chr ';' ∧ ch ≠ chr ',') (more : List UInt8) :
    skipHeader (text ++ more) = skipHeader more := by
  induction text with
  | nil => rfl
  | cons c text ih =>
    rw [List.cons_append, skipHeader, if_neg (not_or.mpr (whole c List.mem_cons_self))]
    exact ih fun ch member => whole ch (List.mem_cons_of_mem _ member)

theorem skipHeader_spaces (text : List UInt8) : skipHeader (skipSpaces text) = skipHeader text := by
  have split : text.takeWhile (· = chr ' ') ++ skipSpaces text = text := List.takeWhile_append_dropWhile
  conv_rhs => rw [← split]
  refine (skipHeader_append (fun ch member => ?_) _).symm
  have space : ch = chr ' ' := by simpa using List.mem_takeWhile_imp member
  subst space
  decide

theorem take_iff : (text.take name.length).map ngxTolower = name.map ngxTolower ↔
    ∃ rest, Behind name text rest := by
  constructor
  · exact fun same => ⟨text.drop name.length, text.take name.length, (List.take_append_drop _ _).symm, same⟩
  · rintro ⟨rest, begun, rfl, cased⟩
    have size := congrArg List.length cased
    rw [List.length_map, List.length_map] at size
    rw [← size, List.take_left, cased]

theorem skipHeader_behind (cookie : CookieName name) (behind : Behind name text rest) :
    skipHeader text = skipHeader (skipSpaces rest) := by
  obtain ⟨begun, rfl, cased⟩ := behind
  rw [skipHeader_spaces]
  refine skipHeader_append (fun ch member => not_or.1 fun sep => ?_) rest
  have low : ngxTolower ch ∈ name.map ngxTolower := cased ▸ List.mem_map_of_mem member
  obtain ⟨other, inside, same⟩ := List.mem_map.1 low
  have plain := (cookie.plain other inside).2
  rw [tolower_sep sep same.symm] at plain
  exact sep.elim plain.1 plain.2

theorem elementData_some (found : elementData name text = some data) :
    ∃ rest more, Behind name text rest ∧ skipSpaces rest = chr '=' :: more ∧ data = skipSpaces more := by
  rw [elementData] at found
  split at found
  next same =>
    obtain ⟨rest, behind⟩ := take_iff.1 same
    rw [behind.drop] at found
    cases spaced : skipSpaces rest with
    | nil => rw [spaced] at found; cases found
    | cons eq more =>
      rw [spaced] at found
      dsimp only at found
      split at found
      next sign => exact ⟨rest, more, behind, by rw [spaced, sign], (Option.some.inj found).symm⟩
      next => cases found
  next => cases found

theorem elementData_length (cookie : CookieName name) (found : elementData name text = some data) :
    (skipHeader text).length ≤ data.length := by
  obtain ⟨rest, more, behind, spaced, rfl⟩ := elementData_some found
  rw [skipHeader_behind cookie behind, spaced, skipHeader, if_neg (by decide), ← skipHeader_spaces]
  cases skipSpaces more with
  | nil => exact Nat.le_refl _
  | cons c more => exact (skipHeader_length c more).trans (Nat.le_succ _)

theorem headerData_nil (name : List UInt8) (fuel : Nat) : headerData name fuel [] = none := by
  cases fuel <;> rfl

theorem headerData_length (found : headerData name fuel start = some data) : data.length < start.length := by
  induction fuel generalizing start with
  | zero => cases found
  | succ fuel ih =>
    cases start with
    | nil => cases found
    | cons ch start =>
      rw [headerData] at found
      split at found
      next => exact (ih found).trans_le ((skipHeader_length ch start).trans (Nat.le_succ _))
      next =>
        have inside := (skipSpaces_length ((ch :: start).drop name.length)).trans (List.drop_sublist _ _).length_le
        cases spaced : skipSpaces ((ch :: start).drop name.length) with
        | nil => rw [spaced] at found; cases found
        | cons eq left =>
          rw [spaced] at found inside
          refine Nat.lt_of_lt_of_le ?_ inside
          dsimp only at found
          split at found
          next =>
            cases left with
            | nil => rw [skipHeader, headerData_nil] at found; cases found
            | cons c left =>
              have less := (ih found).trans_le (skipHeader_length c left)
              simp only [List.length_cons]
              omega
          next =>
            cases found
            exact Nat.lt_succ_of_le (skipSpaces_length left)

theorem passed_iff (cookie : CookieName name)
    (next : headerData name fuel (skipHeader text) = (elements (skipHeader text)).findSome? (elementData name) ↔
      seen name false (elements (skipHeader text)) = true) :
    headerData name fuel (skipHeader text) = named name text ↔ seen name true (elements (skipSpaces text)) = true := by
  rw [← skipHeader_spaces] at next ⊢
  rw [named]
  revert next
  cases skipSpaces text with
  | nil => simp [skipHeader, headerData_nil, elements, seen]
  | cons c more =>
    intro next
    rw [elements, List.findSome?_cons, seen]
    cases mine : elementData name (c :: more) with
    | none => simpa using next
    | some data =>
      have long := elementData_length cookie mine
      have other : headerData name fuel (skipHeader (c :: more)) ≠ some data := fun found =>
        absurd (headerData_length found) (by omega)
      simpa using other

theorem headerData_iff (cookie : CookieName name) (fits : start.length ≤ fuel) :
    headerData name fuel start = (elements start).findSome? (elementData name) ↔
      seen name false (elements start) = true := by
  induction fuel generalizing start with
  | zero => simp [List.length_eq_zero_iff.1 (Nat.le_zero.1 fits), headerData_nil, elements, seen]
  | succ fuel ih =>
    cases start with
    | nil => simp [headerData_nil, elements, seen]
    | cons ch start =>
      rw [List.length_cons, Nat.add_le_add_iff_right] at fits
      have next := ih ((skipHeader_length ch start).trans fits)
      rw [headerData, elements, List.findSome?_cons, seen, elementData, bare]
      by_cases found : ngxStrncasecmp name.length (ch :: start) name = 0
      · obtain ⟨rest, behind⟩ := (strncasecmp_zero_iff fun ch member => (cookie.plain ch member).1).1 found
        rw [skipHeader_behind cookie behind] at next ⊢
        rw [if_neg (not_not.2 found), if_pos (take_iff.2 ⟨rest, behind⟩), behind.drop]
        have size : (skipSpaces rest).length ≤ fuel + 1 := by
          refine (skipSpaces_length rest).trans ?_
          rw [← behind.drop, List.length_drop, List.length_cons]
          omega
        revert size next
        cases skipSpaces rest with
        | nil => simp [skipHeader, elements, seen]
        | cons eq left =>
          intro next size
          rw [List.length_cons, Nat.add_le_add_iff_right] at size
          have after : (skipHeader left).length ≤ fuel := (skipHeader_length (chr '=') left).trans size
          by_cases sign : eq = chr '='
          · simp [sign]
          · by_cases sep : eq = chr ';' ∨ eq = chr ','
            · have passed := passed_iff cookie (ih after)
              rw [skipHeader, if_pos sep]
              simpa [sign, take_iff.2 ⟨rest, behind⟩, sep, named] using passed
            · rw [skipHeader, if_neg sep] at next ⊢
              simpa [sign, sep] using next
      · have other : ¬((ch :: start).take name.length).map ngxTolower = name.map ngxTolower := fun same =>
          found ((strncasecmp_zero_iff fun ch member => (cookie.plain ch member).1).2 (take_iff.1 same))
        rw [if_pos found, if_neg other, decide_eq_false fun both => other both.1]
        exact next

theorem CookieName.not_behind (cookie : CookieName name) (some_ : name ≠ []) : ¬Behind name (chr ' ' :: text) rest := by
  rintro ⟨begun, split, cased⟩
  cases name with
  | nil => exact some_ rfl
  | cons c name =>
    cases begun with
    | nil => cases cased
    | cons b begun =>
      rw [List.map_cons, List.map_cons, List.cons.injEq, ← (List.cons.inj split).1] at cased
      have space : ngxTolower (chr ' ') = ngxTolower c → c = chr ' ' := fun same =>
        tolower_below (by decide) same.symm
      exact cookie.first (congrArg some (space cased.1))

theorem header_iff (cookie : CookieName name) (some_ : name ≠ []) (h : List UInt8) :
    headerData name h.length h = named name h ↔
      seen name (h.head? = some (chr ' ')) (elements (skipSpaces h)) = true := by
  cases h with
  | nil => simp [headerData_nil, named, skipSpaces, elements, seen]
  | cons c start =>
    by_cases space : c = chr ' '
    · subst space
      have passed : ngxStrncasecmp name.length (chr ' ' :: start) name ≠ 0 := fun found =>
        ((strncasecmp_zero_iff fun ch member => (cookie.plain ch member).1).1 found).elim
          fun _ => cookie.not_behind some_
      rw [List.length_cons, headerData, if_pos passed,
        passed_iff cookie (headerData_iff cookie (skipHeader_length _ _))]
      simp
    · rw [named, skipSpaces_other space, headerData_iff cookie (Nat.le_refl _)]
      simp [space]

theorem seen_none {pass : Bool} {list : List (List UInt8)} (none_ : list.findSome? (elementData name) = none) :
    seen name pass list = true := by
  induction list generalizing pass with
  | nil => rfl
  | cons element list ih =>
    rw [List.findSome?_eq_none_iff] at none_
    rw [seen, none_ element List.mem_cons_self]
    exact ih (List.findSome?_eq_none_iff.2 fun e member => none_ e (List.mem_cons_of_mem _ member))

theorem elements_length {element : List UInt8} (member : element ∈ elements text) : element.length ≤ text.length := by
  induction text using elements.induct with
  | case1 => simp [elements] at member
  | case2 ch start ih =>
    rw [elements] at member
    rcases List.mem_cons.1 member with rfl | later
    · exact Nat.le_refl _
    · exact (ih later).trans ((skipHeader_length ch start).trans (Nat.le_succ _))

theorem Behind.length (behind : Behind name text rest) : name.length ≤ text.length := by
  obtain ⟨begun, rfl, cased⟩ := behind
  have size := congrArg List.length cased
  rw [List.length_map, List.length_map] at size
  rw [List.length_append]
  omega

theorem named_short {h : List UInt8} (short : h.length < name.length) : named name h = none := by
  rw [named, List.findSome?_eq_none_iff]
  intro element member
  cases found : elementData name element with
  | none => rfl
  | some data =>
    obtain ⟨rest, _, behind, _⟩ := elementData_some found
    exact absurd (behind.length.trans ((elements_length member).trans (skipSpaces_length h))) (Nat.not_le.2 short)

theorem multiHeaderData_index {headers : List (List UInt8)} {i k : Nat}
    (found : multiHeaderData name i headers = some (k, data)) : i ≤ k := by
  induction headers generalizing i with
  | nil => cases found
  | cons h headers ih =>
    rw [multiHeaderData] at found
    split at found
    next => exact (Nat.le_succ i).trans (ih found)
    next =>
      cases here : headerData name h.length h with
      | none => exact (Nat.le_succ i).trans (ih (by simpa [here] using found))
      | some d =>
        simp only [here, Option.map_some, Option.some_or, Option.some.injEq, Prod.mk.injEq] at found
        omega

theorem multiHeaderData_iff (cookie : CookieName name) (some_ : name ≠ []) (i : Nat) (headers : List (List UInt8)) :
    multiHeaderData name i headers = namedData name i headers ↔ firstSeen name headers = true := by
  induction headers generalizing i with
  | nil => simp [multiHeaderData, namedData, firstSeen]
  | cons h headers ih =>
    have header := header_iff cookie some_ h
    rw [multiHeaderData, namedData, firstSeen]
    cases first : named name h with
    | none =>
      have nothing : headerData name h.length h = none := first ▸ header.2 (seen_none first)
      simpa [nothing] using ih (i + 1)
    | some d =>
      have long : ¬h.length < name.length := fun short => by simp [named_short short] at first
      rw [first] at header
      rw [if_neg long, Option.isSome_some, if_pos rfl, ← header, Option.map_some, Option.some_or]
      cases here : headerData name h.length h with
      | none =>
        have later : multiHeaderData name (i + 1) headers ≠ some (i, d) := fun found =>
          absurd (multiHeaderData_index found) (by omega)
        simpa using later
      | some d' => simp

theorem strncasecmp_reads (more : List UInt8) :
    ngxStrncasecmp name.length (start ++ 0 :: more) name = ngxStrncasecmp name.length start name := by
  induction name generalizing start with
  | nil => rfl
  | cons c name ih =>
    have zero : ngxTolower 0 = 0 := rfl
    cases start with
    | nil => simp [ngxStrncasecmp, peek, zero]
    | cons b start => simp [ngxStrncasecmp, peek, ih]

theorem headerValue_data : headerValue name fuel start =
    (headerData name fuel start).map (List.takeWhile (· ≠ chr ';')) := by
  induction fuel generalizing start with
  | zero => rfl
  | succ fuel ih =>
    cases start with
    | nil => rfl
    | cons ch start =>
      rw [headerValue, headerData, ih]
      cases skipSpaces ((ch :: start).drop name.length) with
      | nil => split <;> rfl
      | cons eq left => simp only [ih]; split <;> (try split) <;> rfl

theorem multiHeaderLines_data (i : Nat) (headers : List (List UInt8)) : ngxHttpParseMultiHeaderLines name headers =
    (multiHeaderData name i headers).map fun found => found.2.takeWhile (· ≠ chr ';') := by
  induction headers generalizing i with
  | nil => rfl
  | cons h headers ih =>
    rw [ngxHttpParseMultiHeaderLines, multiHeaderData, headerValue_data, ih (i + 1)]
    split
    · rfl
    · cases headerData name h.length h <;> rfl

/-- The first element with the name is found exactly if no bare name or space in front passes it. -/
theorem first_element_iff (cookie : CookieName name) (some_ : name ≠ []) (headers : List (List UInt8)) :
    (multiHeaderData name 0 headers = namedData name 0 headers ↔ firstSeen name headers = true) ∧
      ngxHttpParseMultiHeaderLines name headers =
        (multiHeaderData name 0 headers).map (fun found => found.2.takeWhile (· ≠ chr ';')) ∧
      ∀ start more, ngxStrncasecmp name.length (start ++ 0 :: more) name = ngxStrncasecmp name.length start name ∧
        (ngxStrncasecmp name.length start name = 0 → name.length ≤ start.length) := by
  refine ⟨multiHeaderData_iff cookie some_ 0 headers, multiHeaderLines_data 0 headers, fun start more => ?_⟩
  refine ⟨strncasecmp_reads more, fun found => ?_⟩
  obtain ⟨rest, behind⟩ := (strncasecmp_zero_iff fun ch member => (cookie.plain ch member).1).1 found
  exact behind.length

end Elements

/-- The header is `b; a=1`. -/
theorem first_element_second : multiHeaderData [chr 'a'] 0 [bytes "b; a=1"] = namedData [chr 'a'] 0 [bytes "b; a=1"] :=
  (first_element_iff ⟨by decide +kernel, by decide⟩ (by decide) _).1.2 (by decide +kernel)

/-- In `a;a=1` the element behind the bare name is passed. -/
theorem first_element_passed : multiHeaderData [chr 'a'] 0 [bytes "a;a=1"] = none ∧
    namedData [chr 'a'] 0 [bytes "a;a=1"] = some (0, [chr '1']) := by
  decide +kernel

end NgxFormal.Http.Userid
