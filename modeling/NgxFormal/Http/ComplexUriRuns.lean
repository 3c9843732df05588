import NgxFormal.Http.ComplexUri

/-! The machine of `ngx_http_parse_complex_uri` follows the decoded path segment by segment. -/

namespace NgxFormal.Http.ComplexUri

open Lib

/-- The state in which the bytes read of a segment leave the machine. -/
def kind (name : Segment) : Plain :=
  if name = [] then .slash
  else if name = here then .dot
  else if name = up then .dotDot
  else .usual

/-- The machine after `taken` bytes of the raw URI, at a place of the path. -/
structure Rep (taken : Nat) (p : Place) (m : Machine) : Prop where
  start : 0 ≤ m.u
  uri : m.uri = p.uri
  room : m.u ≤ taken
  writes : ∀ i ∈ m.writes, 0 ≤ i ∧ i < taken
  exten : ∀ uriExt, m.uriExt = some uriExt → kind p.name = .usual ∧
    ∃ stem ext, p.name = stem ++ chr '.' :: ext ∧ chr '.' ∉ ext ∧ uriExt + ext.length = m.u

section Memory

variable {m : Machine} {ch : UInt8}

theorem length_uri (m : Machine) : m.uri.length = m.u.toNat := by
  rw [Machine.uri, List.length_map, List.length_range]

theorem uri_put (start : 0 ≤ m.u) : (m.put ch).uri = m.uri ++ [ch] := by
  obtain ⟨n, length⟩ := Int.eq_ofNat_of_zero_le start
  have grown : (m.put ch).u.toNat = n + 1 := by
    rw [Machine.put]
    dsimp only
    omega
  have old : m.u.toNat = n := by omega
  rw [Machine.uri, Machine.uri, grown, old, List.range_succ, List.map_append, List.map_singleton]
  congr 1
  · apply List.map_congr_left
    intro i member
    have less := List.mem_range.mp member
    rw [Machine.put]
    exact if_neg (by omega)
  · rw [Machine.put]
    dsimp only
    rw [if_pos length.symm]

theorem uri_back {kept dropped : List UInt8} (split : m.uri = kept ++ dropped) :
    ({ m with u := kept.length } : Machine).uri = kept := by
  have shorter : kept.length ≤ m.u.toNat := by
    rw [← length_uri, split, List.length_append]
    omega
  have cut : kept = m.uri.take kept.length := by rw [split, List.take_left]
  conv_rhs => rw [cut]
  rw [Machine.uri, Machine.uri, ← List.map_take, List.take_range, Nat.min_eq_left shorter]
  rfl

theorem data_of_uri {front after : List UInt8} (split : m.uri = front ++ ch :: after) :
    m.data front.length = ch := by
  have inside : front.length < m.u.toNat := by
    rw [← length_uri, split, List.length_append, List.length_cons]
    omega
  have read : m.uri[front.length]? = some (m.data front.length) := by
    rw [Machine.uri, List.getElem?_map, List.getElem?_range inside]
    rfl
  rw [split, List.getElem?_append_right (le_refl _), Nat.sub_self, List.getElem?_cons_zero] at read
  exact (Option.some.inj read).symm

theorem backUp_spec {data : Int → UInt8} {stop : Nat} (found : data stop = chr '/') (count : Nat)
    (clear : ∀ j < count, data (stop + 1 + j : Nat) ≠ chr '/') :
    backUp data (stop + count) = some ((stop : Int) + 1) := by
  induction count with
  | zero =>
    cases stop with
    | zero =>
      rw [backUp]
      exact if_pos found
    | succ stop =>
      rw [Nat.add_zero, backUp]
      exact if_pos found
  | succ count ih =>
    have here := clear count (by omega)
    rw [show stop + 1 + count = stop + count + 1 by omega, Nat.cast_succ] at here
    rw [← Nat.add_assoc, backUp, if_neg here]
    exact ih fun j less => clear j (by omega)

theorem backUp_word {front word after : List UInt8} {count : Nat}
    (split : m.uri = front ++ chr '/' :: (word ++ after)) (whole : chr '/' ∉ word)
    (short : count ≤ word.length) :
    backUp m.data (front.length + count) = some ((front.length : Int) + 1) := by
  apply backUp_spec (data_of_uri split)
  intro j less
  have inside : j < word.length := by omega
  have cut : m.uri = (front ++ chr '/' :: word.take j) ++ word[j] :: (word.drop (j + 1) ++ after) := by
    have parts : word = word.take j ++ word[j] :: word.drop (j + 1) := by
      rw [List.getElem_cons_drop, List.take_append_drop]
    rw [split]
    conv_lhs => rw [parts]
    simp only [List.append_assoc, List.cons_append]
  have read := data_of_uri cut
  have place : (front ++ chr '/' :: word.take j).length = front.length + 1 + j := by
    rw [List.length_append, List.length_cons, List.length_take, Nat.min_eq_left (by omega)]
    omega
  rw [place] at read
  rw [read]
  intro same
  exact whole (same ▸ List.getElem_mem inside)

end Memory

theorem base_eq (dirs : List Segment) : ∃ front, base dirs = front ++ [chr '/'] := by
  cases dirs with
  | nil => exact ⟨[], rfl⟩
  | cons dir dirs => exact ⟨base dirs ++ dir, rfl⟩

section Steps

variable {mergeSlashes : Bool} {taken : Nat} {p p' : Place} {m : Machine} {ch : UInt8}

theorem Rep.length (rep : Rep taken p m) : m.u = p.uri.length := by
  have start := rep.start
  rw [← rep.uri, length_uri]
  omega

theorem Rep.mono (rep : Rep taken p m) {taken' : Nat} (le : taken ≤ taken') : Rep taken' p m := by
  have room := rep.room
  refine ⟨rep.start, rep.uri, by omega, ?_, rep.exten⟩
  intro i member
  have inside := rep.writes i member
  omega

theorem Rep.plus (rep : Rep taken p m) : Rep taken p (m.plus ch) :=
  ⟨rep.start, rep.uri, rep.room, rep.writes, rep.exten⟩

theorem Rep.quoted (rep : Rep taken p m) : Rep taken p { m with quotedUri := true } :=
  ⟨rep.start, rep.uri, rep.room, rep.writes, rep.exten⟩

/-- A store appends a byte. What `r->uri_ext` is to be behind it is left to each case. -/
theorem Rep.put (rep : Rep taken p m) (grown : p'.uri = p.uri ++ [ch])
    (exten : ∀ uriExt, m.uriExt = some uriExt → kind p'.name = .usual ∧
      ∃ stem ext, p'.name = stem ++ chr '.' :: ext ∧ chr '.' ∉ ext ∧
        uriExt + ext.length = m.u + 1) :
    Rep (taken + 1) p' (m.put ch) := by
  have start := rep.start
  have room := rep.room
  refine ⟨?_, ?_, ?_, ?_, exten⟩
  · rw [Machine.put]
    dsimp only
    omega
  · rw [uri_put start, rep.uri, grown]
  · rw [Machine.put]
    dsimp only
    omega
  · intro i member
    rw [Machine.put] at member
    rcases List.mem_cons.mp member with rfl | old
    · omega
    · have inside := rep.writes i old
      omega

theorem Rep.back (rep : Rep taken p m) (unset : m.uriExt = none) {dropped : List UInt8}
    (split : p.uri = p'.uri ++ dropped) :
    Rep (taken + 1) p' { m with u := p'.uri.length } := by
  have room := rep.room
  have shorter : p'.uri.length ≤ m.u := by
    rw [rep.length, split, List.length_append]
    omega
  refine ⟨Int.natCast_nonneg _, uri_back (rep.uri.trans split), ?_, ?_, ?_⟩
  · dsimp only
    omega
  · intro i member
    have inside := rep.writes i member
    omega
  · intro uriExt set
    rw [show ({ m with u := p'.uri.length } : Machine).uriExt = m.uriExt from rfl, unset] at set
    cases set

theorem Rep.unset (rep : Rep taken p m) (other : kind p.name ≠ .usual) : m.uriExt = none := by
  cases ext : m.uriExt with
  | none => rfl
  | some uriExt => exact absurd (rep.exten uriExt ext).1 other

theorem kind_usual {name : Segment} (named : name ≠ []) (dot : name ≠ here) (dots : name ≠ up) :
    kind name = .usual := by
  rw [kind, if_neg named, if_neg dot, if_neg dots]

theorem kind_other (name : Segment) (other : ch ≠ chr '.') : kind (name ++ [ch]) = .usual := by
  have ends (word : Segment) (last : word.getLast? = some (chr '.')) : name ++ [ch] ≠ word := by
    intro same
    rw [← same, List.getLast?_concat] at last
    exact other (Option.some.inj last)
  exact kind_usual (by simp) (ends here rfl) (ends up rfl)

theorem uri_append (dirs : List Segment) (name : Segment) (ch : UInt8) :
    (Place.mk dirs (name ++ [ch])).uri = (Place.mk dirs name).uri ++ [ch] := by
  rw [Place.uri, Place.uri, List.append_assoc]

theorem Rep.other (rep : Rep taken p m) (dot : ch ≠ chr '.') :
    Rep (taken + 1) ⟨p.dirs, p.name ++ [ch]⟩ (m.put ch) := by
  apply rep.put (uri_append p.dirs p.name ch)
  intro uriExt set
  refine ⟨kind_other p.name dot, ?_⟩
  obtain ⟨_, stem, ext, name, clear, place⟩ := rep.exten uriExt set
  refine ⟨stem, ext ++ [ch], ?_, ?_, ?_⟩
  · rw [name]
    simp
  · intro member
    rcases List.mem_append.mp member with old | new
    · exact clear old
    · exact dot (List.mem_singleton.mp new).symm
  · rw [List.length_append, List.length_singleton]
    omega

theorem popTo_spec (rep : Rep taken p m) (proper : p.Proper mergeSlashes) (dots : p.name = up) :
    popTo m.data m.u = (ascend p.dirs).map fun dirs => ((base dirs).length : Int) := by
  have uri : m.uri = base p.dirs ++ up := by rw [rep.uri, Place.uri, dots]
  have length : m.u = (base p.dirs ++ up).length := by rw [rep.length, Place.uri, dots]
  have whole (dir : Segment) (member : dir ∈ p.dirs) : chr '/' ∉ dir :=
    (proper.dirs dir member).whole
  generalize p.dirs = dirs at uri length whole
  match dirs with
  | [] =>
    rw [popTo, length]
    rfl
  | [] :: [] =>
    rw [popTo, length]
    rfl
  | (ch :: dir) :: dirs =>
    obtain ⟨front, open'⟩ := base_eq dirs
    have clear := whole (ch :: dir) List.mem_cons_self
    have split : m.uri = front ++ chr '/' :: ((ch :: dir) ++ chr '/' :: up) := by
      rw [uri, base, open']
      simp
    have place : m.u - 5 = ((front.length + dir.length : Nat) : Int) := by
      rw [length, base, open']
      simp only [List.length_append, List.length_cons, List.length_nil]
      omega
    rw [popTo, place]
    refine (backUp_word split clear (by rw [List.length_cons]; omega)).trans ?_
    rw [ascend, Option.map_some, open', List.length_append, List.length_singleton, Nat.cast_succ]
  | [] :: dir :: dirs =>
    obtain ⟨front, open'⟩ := base_eq dirs
    have clear := whole dir (List.mem_cons_of_mem _ List.mem_cons_self)
    have split : m.uri = front ++ chr '/' :: (dir ++ chr '/' :: chr '/' :: up) := by
      rw [uri, base, base, open']
      simp
    have place : m.u - 5 = ((front.length + dir.length : Nat) : Int) := by
      rw [length, base, base, open']
      simp only [List.length_append, List.length_cons, List.length_nil]
      omega
    rw [popTo, place]
    refine (backUp_word split clear (le_refl _)).trans ?_
    rw [ascend, Option.map_some, open', List.length_append, List.length_singleton, Nat.cast_succ]

theorem base_ascend {dirs dirs' : List Segment} (went : ascend dirs = some dirs') :
    ∃ dropped, base dirs = base dirs' ++ dropped := by
  match dirs with
  | [] => cases went
  | [] :: [] => cases went
  | (_ :: _) :: _ =>
    cases went
    exact ⟨_, by rw [base, List.append_assoc]⟩
  | [] :: _ :: _ =>
    cases went
    exact ⟨_, by rw [base, base, List.append_assoc, List.append_assoc, List.append_assoc]⟩

/-- The step for a byte of the path: refused together with the place, or at the next one. -/
def Follows (taken : Nat) (place : Option Place) (m : Machine)
    (turn : Turn) : Prop :=
  match place with
  | none => turn = .invalid m
  | some p => ∃ m', turn = .next (.plain (kind p.name)) m' ∧ Rep taken p m'

theorem place_kind (mergeSlashes : Bool) (dirs : List Segment) (name : Segment) :
    place mergeSlashes dirs name =
      match kind name with
      | .usual => some (name :: dirs)
      | .slash => if mergeSlashes then some dirs else some ([] :: dirs)
      | .dot => some dirs
      | .dotDot => ascend dirs := by
  rw [place, kind]
  by_cases empty : name = []
  · subst empty
    cases mergeSlashes <;> rfl
  · by_cases dot : name = here
    · subst dot
      rfl
    · by_cases dots : name = up
      · subst dots
        rfl
      · simp [empty, dot, dots]

theorem name_of_kind {name : Segment} :
    match kind name with
    | .usual => name ≠ [] ∧ name ≠ here ∧ name ≠ up
    | .slash => name = []
    | .dot => name = here
    | .dotDot => name = up := by
  rw [kind]
  split_ifs with empty dot dots
  · exact empty
  · exact dot
  · exact dots
  · exact ⟨empty, dot, dots⟩

theorem Rep.slash (rep : Rep taken p m) (proper : p.Proper mergeSlashes) :
    Follows (taken + 1) (p.advance mergeSlashes (chr '/')) m
      (plainTurn mergeSlashes (kind p.name) (chr '/') m) := by
  have named := @name_of_kind p.name
  rw [Place.advance, if_pos rfl, place_kind, plainTurn_slash]
  cases state : kind p.name with
  | usual =>
    refine ⟨_, rfl, ?_⟩
    have cleared : Rep taken p { m with uriExt := none } :=
      ⟨rep.start, rep.uri, rep.room, rep.writes, fun _ set => by cases set⟩
    apply cleared.put
    · rw [Place.uri, Place.uri, base, List.append_nil]
    · exact fun _ set => by cases set
  | slash =>
    rw [state] at named
    have unset := rep.unset (by rw [state]; decide)
    cases mergeSlashes with
    | true =>
      have same : (Place.mk p.dirs []) = p := by rw [← named]
      refine ⟨m, rfl, ?_⟩
      show Rep (taken + 1) ⟨p.dirs, []⟩ m
      rw [same]
      exact rep.mono (by omega)
    | false =>
      refine ⟨m.put (chr '/'), rfl, ?_⟩
      apply rep.put
      · rw [Place.uri, Place.uri, base, named, List.append_nil, List.append_nil]
      · rw [unset]
        exact fun _ set => by cases set
  | dot =>
    rw [state] at named
    have unset := rep.unset (by rw [state]; decide)
    have split : p.uri = (Place.mk p.dirs []).uri ++ here := by
      rw [Place.uri, Place.uri, named, List.append_nil]
    have length : m.u - 1 = (Place.mk p.dirs []).uri.length := by
      rw [rep.length, split, List.length_append, List.length_singleton]
      omega
    exact ⟨_, by rw [length]; rfl, rep.back unset split⟩
  | dotDot =>
    rw [state] at named
    have unset := rep.unset (by rw [state]; decide)
    dsimp only
    rw [popTo_spec rep proper named]
    cases went : ascend p.dirs with
    | none => rfl
    | some dirs =>
      obtain ⟨dropped, open'⟩ := base_ascend went
      have split : p.uri = (Place.mk dirs []).uri ++ (dropped ++ up) := by
        rw [Place.uri, Place.uri, named, open', List.append_nil, List.append_assoc]
      have length : ((base dirs).length : Int) = (Place.mk dirs []).uri.length := by
        rw [Place.uri, List.append_nil]
      refine ⟨{ m with u := (Place.mk dirs []).uri.length }, ?_, rep.back unset split⟩
      rw [Option.map_some]
      dsimp only
      rw [length]
      rfl

theorem Rep.dot (rep : Rep taken p m) :
    Follows (taken + 1) (p.advance mergeSlashes (chr '.')) m
      (plainTurn mergeSlashes (kind p.name) (chr '.') m) := by
  have named := @name_of_kind p.name
  have advanced : p.advance mergeSlashes (chr '.') = some ⟨p.dirs, p.name ++ [chr '.']⟩ :=
    if_neg (by decide)
  rw [advanced, plainTurn_dot]
  -- a dot outside of `sw_usual` starts no extension, and there is none to go on with
  have dotted (other : kind p.name ≠ .usual) :
      Rep (taken + 1) ⟨p.dirs, p.name ++ [chr '.']⟩ (m.put (chr '.')) := by
    apply rep.put (uri_append _ _ _)
    rw [rep.unset other]
    exact fun _ set => by cases set
  cases state : kind p.name with
  | usual =>
    rw [state] at named
    obtain ⟨empty, dot, dots⟩ := named
    have usual : kind (p.name ++ [chr '.']) = .usual := by
      refine kind_usual (by simp) ?_ ?_
      · intro same
        exact empty (List.append_cancel_right (same.trans (List.nil_append here).symm))
      · intro same
        exact dot (List.append_cancel_right (same.trans (show up = here ++ here from rfl)))
    refine ⟨_, by rw [usual], ?_⟩
    have marked : Rep taken ⟨p.dirs, p.name⟩ { m with uriExt := none } :=
      ⟨rep.start, rep.uri, rep.room, rep.writes, fun _ set => by cases set⟩
    have stored := marked.put (uri_append p.dirs p.name (chr '.')) (fun _ set => by cases set)
    refine ⟨stored.start, stored.uri, stored.room, stored.writes, ?_⟩
    intro uriExt set
    refine ⟨usual, p.name, [], rfl, List.not_mem_nil, ?_⟩
    cases set
    rw [List.length_nil, Nat.cast_zero, add_zero]
    rfl
  | slash =>
    rw [state] at named
    refine ⟨_, ?_, dotted (by rw [state]; decide)⟩
    rw [named]
    rfl
  | dot =>
    rw [state] at named
    refine ⟨_, ?_, dotted (by rw [state]; decide)⟩
    rw [named]
    rfl
  | dotDot =>
    rw [state] at named
    refine ⟨(m.plus (chr '.')).put (chr '.'), ?_,
      @Rep.plus _ _ _ (chr '.') (dotted (by rw [state]; decide))⟩
    rw [named]
    rfl

theorem Rep.plainTurn (rep : Rep taken p m) (proper : p.Proper mergeSlashes)
    (percent : ch ≠ chr '%') (query : ch ≠ chr '?') (hash : ch ≠ chr '#') :
    Follows (taken + 1) (p.advance mergeSlashes ch) m
      (ComplexUri.plainTurn mergeSlashes (kind p.name) ch m) := by
  by_cases slash : ch = chr '/'
  · subst slash
    exact rep.slash proper
  by_cases dot : ch = chr '.'
  · subst dot
    exact rep.dot
  have advanced : p.advance mergeSlashes ch = some ⟨p.dirs, p.name ++ [ch]⟩ := if_neg slash
  rw [advanced, plainTurn_other _ _ _ (by rintro (h | h | h | h | h) <;> contradiction)]
  exact ⟨_, by rw [kind_other p.name dot], (rep.plus.other dot)⟩

theorem hexDigit_digit (digit : isDigit ch = true) :
    hexDigit ch = some (ch - chr '0') ∧ ch - chr '0' ≤ 9 := by
  refine ⟨by rw [hexDigit, if_pos digit], ?_⟩
  revert digit
  refine byte_table ch ?_
  decide +kernel

theorem hexDigit_letter {c : UInt8} (letter : chr 'a' ≤ c ∧ c ≤ chr 'f') :
    10 ≤ c - chr 'a' + 10 ∧ c - chr 'a' + 10 ≤ 15 := by
  revert letter
  refine byte_table c ?_
  decide +kernel

theorem low_half (high low : UInt8) (small : low ≤ 15) : ((high <<< 4) + low) &&& 15 = low := by
  have bound : low.toNat ≤ 15 := UInt8.le_iff_toNat_le.mp small
  apply UInt8.toNat_inj.mp
  rw [UInt8.toNat_and, UInt8.toNat_add, UInt8.toNat_shiftLeft, Nat.shiftLeft_eq]
  show _ &&& (2 ^ 4 - 1) = _
  rw [Nat.and_two_pow_sub_one_eq_mod]
  show (high.toNat * 2 ^ 4 % 2 ^ 8 + low.toNat) % 2 ^ 8 % 2 ^ 4 = low.toNat
  omega

theorem quotedTurn_eq (state : Plain) (ch : UInt8) (m : Machine) :
    quotedTurn state ch m =
      match hexDigit ch with
      | some decoded => .next (.quotedSecond state decoded) { m with quotedUri := true }
      | none => .invalid { m with quotedUri := true } := by
  rw [quotedTurn, hexDigit]
  dsimp only
  split_ifs <;> rfl

theorem quotedSecondTurn_eq (mergeSlashes : Bool) (state : Plain) (decoded ch : UInt8)
    (m : Machine) :
    quotedSecondTurn mergeSlashes state decoded ch m =
      match hexDigit ch with
      | none => .invalid m
      | some low =>
        let byte := (decoded <<< 4) + low
        if byte = 0 then .invalid m
        else if byte = chr '%' ∨ byte = chr '#' ∨ byte = chr '?' then
          .next (.plain .usual) (m.put byte)
        else ComplexUri.plainTurn mergeSlashes state byte (m.plus byte) := by
  rw [quotedSecondTurn]
  by_cases digit : isDigit ch = true
  · obtain ⟨value, small⟩ := hexDigit_digit digit
    have byte : (decoded <<< 4) + ch - chr '0' = (decoded <<< 4) + (ch - chr '0') := by
      rw [UInt8.sub_eq_add_neg, UInt8.sub_eq_add_neg, UInt8.add_assoc]
    have half := low_half decoded (ch - chr '0')
      (UInt8.le_trans small (by decide))
    rw [if_pos digit, value, byte]
    dsimp only
    generalize (decoded <<< 4) + (ch - chr '0') = byte at half
    have query : byte ≠ chr '?' := by
      rintro rfl
      rw [← half] at small
      exact absurd small (by decide)
    have plus : byte ≠ chr '+' := by
      rintro rfl
      rw [← half] at small
      exact absurd small (by decide)
    have same : m.plus byte = m := by
      rw [Machine.plus, decide_eq_false plus, Bool.or_false]
    rw [same]
    by_cases zero : byte = 0
    · rw [zero, if_neg (by decide), if_pos rfl, if_pos rfl]
    · have others : (byte = chr '%' ∨ byte = chr '#' ∨ byte = chr '?') ↔
          byte = chr '%' ∨ byte = chr '#' := by
        simp [query]
      rw [if_neg zero, if_neg zero]
      simp only [others]
  · rw [if_neg digit, hexDigit, if_neg digit]
    dsimp only
    generalize ch ||| (0x20 : UInt8) = c
    by_cases letter : chr 'a' ≤ c ∧ c ≤ chr 'f'
    · have bounds := hexDigit_letter letter
      have byte : (decoded <<< 4) + c - chr 'a' + (10 : UInt8) =
          (decoded <<< 4) + (c - chr 'a' + (10 : UInt8)) := by
        rw [UInt8.sub_eq_add_neg, UInt8.sub_eq_add_neg, UInt8.add_assoc, UInt8.add_assoc,
          UInt8.add_assoc]
      have half := low_half decoded (c - chr 'a' + 10) bounds.2
      rw [if_pos letter, if_pos letter, byte]
      dsimp only
      generalize (decoded <<< 4) + (c - chr 'a' + (10 : UInt8)) = byte at half
      have high (other : UInt8) (low : ¬ 10 ≤ other &&& 15) : byte ≠ other := by
        rintro rfl
        rw [half] at low
        exact low bounds.1
      rw [if_neg (high 0 (by decide))]
      have others : (byte = chr '%' ∨ byte = chr '#' ∨ byte = chr '?') ↔ byte = chr '?' := by
        simp [high (chr '%') (by decide), high (chr '#') (by decide)]
      simp only [others]
    · rw [if_neg letter, if_neg letter]

theorem Rep.escape (rep : Rep taken p m) (proper : p.Proper mergeSlashes) {low decoded : UInt8}
    (value : hexDigit ch = some low) (byte : (decoded <<< 4) + low ≠ 0) :
    ∃ m', (m' = m ∨ m' = m.plus ((decoded <<< 4) + low)) ∧
      Follows (taken + 1) (p.advance mergeSlashes ((decoded <<< 4) + low)) m'
        (quotedSecondTurn mergeSlashes (kind p.name) decoded ch m) := by
  rw [quotedSecondTurn_eq, value]
  dsimp only
  generalize (decoded <<< 4) + low = octet at *
  rw [if_neg byte]
  split
  · case _ stored =>
      have common : octet ≠ chr '/' ∧ octet ≠ chr '.' := by
        rcases stored with rfl | rfl | rfl <;> decide
      have advanced : p.advance mergeSlashes octet = some ⟨p.dirs, p.name ++ [octet]⟩ :=
        if_neg common.1
      rw [advanced]
      exact ⟨m, Or.inl rfl, _, by rw [kind_other p.name common.2], rep.other common.2⟩
  · case _ plain =>
      simp only [not_or] at plain
      exact ⟨_, Or.inr rfl, rep.plus.plainTurn proper plain.1 plain.2.2 plain.2.1⟩

end Steps

/-- What stands before the first `?` of the raw URI. -/
def rawPath (uri : List UInt8) : List UInt8 := uri.takeWhile (· ≠ chr '?')

/-- The function returns at a place of the path, or refuses the URI where there is none. -/
def Ends (mergeSlashes : Bool) (bound : Nat) (place : Option Place) (outcome : Outcome) : Prop :=
  match place, outcome with
  | some p, .ok parsed m => p.Proper mergeSlashes ∧ Rep bound p m ∧ parsed.uriLen = m.u ∧
      parsed.exten = m.uriExt.map fun uriExt => (uriExt, m.u - uriExt)
  | none, .invalid m => ∀ i ∈ m.writes, 0 ≤ i ∧ i < bound
  | _, _ => False

section Runs

variable {mergeSlashes : Bool} {taken bound : Nat} {p : Place} {m : Machine}

theorem Rep.finish (rep : Rep taken p m) (proper : p.Proper mergeSlashes) (le : taken ≤ bound)
    (args : Option Nat × Option (Nat × Nat)) :
    Ends mergeSlashes bound (some p) (ComplexUri.finish args m) :=
  ⟨proper, rep.mono le, rfl, rfl⟩

theorem Rep.refuse (rep : Rep taken p m) (le : taken ≤ bound) :
    Ends mergeSlashes bound none (.invalid m) :=
  (rep.mono le).writes

theorem follow_cons (ch : UInt8) (raw : List UInt8) (p : Place) :
    (((decode raw).map fun path => ch :: path).bind fun path =>
      path.foldlM (Place.advance mergeSlashes) p) =
      (p.advance mergeSlashes ch).bind (follow mergeSlashes raw) := by
  have both : follow mergeSlashes raw = fun p =>
      (decode raw).bind fun path => path.foldlM (Place.advance mergeSlashes) p := rfl
  rw [both]
  cases decode raw with
  | none => cases p.advance mergeSlashes ch <;> rfl
  | some path => rfl

/-- The loop behind a turn, with `index` the index of the next byte. -/
def Turn.resume (mergeSlashes : Bool) (rest : List UInt8) (index : Nat) : Turn → Outcome
  | .next state m => loop mergeSlashes rest index state m
  | .invalid m => .invalid m
  | .done m => ComplexUri.finish (none, none) m
  | .args m => ComplexUri.finish (argsLoop index rest index) m

theorem loop_cons (ch : UInt8) (rest : List UInt8) (index : Nat) (state : State) :
    loop mergeSlashes (ch :: rest) index state m =
      (turn mergeSlashes state ch m).resume mergeSlashes rest (index + 1) := by
  rw [loop]
  cases turn mergeSlashes state ch m <;> rfl

theorem Follows.ends {place : Option Place} {turn : Turn} {rest : List UInt8} {index : Nat}
    (follows : Follows taken place m turn) (writes : ∀ i ∈ m.writes, 0 ≤ i ∧ i < bound)
    (tail : ∀ p m, place = some p → Rep taken p m →
      Ends mergeSlashes bound (follow mergeSlashes rest p)
        (loop mergeSlashes rest index (.plain (kind p.name)) m)) :
    Ends mergeSlashes bound (place.bind (follow mergeSlashes rest))
      (turn.resume mergeSlashes rest index) := by
  cases place with
  | none =>
    have refused : turn = .invalid m := follows
    rw [refused]
    exact writes
  | some p =>
    obtain ⟨m', next, rep⟩ := follows
    rw [next]
    exact tail p m' rfl rep

theorem rawPath_cons {ch : UInt8} (rest : List UInt8) (plain : ch ≠ chr '?') :
    (rawPath (ch :: rest)).length = (rawPath rest).length + 1 := by
  rw [rawPath, List.takeWhile_cons_of_pos (by simpa using plain), List.length_cons, rawPath]

theorem hexDigit_query {ch value : UInt8} (digit : hexDigit ch = some value) : ch ≠ chr '?' := by
  rintro rfl
  have none : hexDigit (chr '?') = none := by decide
  rw [none] at digit
  cases digit

theorem loop_ends (raw : List UInt8) (index : Nat) (rep : Rep taken p m)
    (proper : p.Proper mergeSlashes) :
    Ends mergeSlashes (taken + (rawPath raw).length) (follow mergeSlashes raw p)
      (loop mergeSlashes raw index (.plain (kind p.name)) m) := by
  induction raw using decode.induct generalizing taken index p m with
  | case1 => exact rep.finish proper (by omega) _
  | case2 ch rest stop =>
    rw [follow, decode_stop rest stop, loop_cons, turn]
    rcases stop with rfl | rfl
    · rw [plainTurn_query]
      exact rep.finish proper (by omega) _
    · rw [plainTurn_hash]
      exact rep.finish proper (by omega) _
  | case3 =>
    rw [loop_cons, turn, plainTurn_percent]
    exact rep.finish proper (by omega) _
  | case4 a =>
    rw [follow, decode_cut, loop_cons, turn, plainTurn_percent, Turn.resume, loop_cons, turn,
      quotedTurn_eq]
    cases value : hexDigit a with
    | none => exact rep.quoted.refuse (by omega)
    | some high => exact rep.quoted.finish proper (by omega) _
  | case5 a b rest percent ih =>
    rw [follow, decode_escape, loop_cons, turn, plainTurn_percent, Turn.resume, loop_cons, turn,
      quotedTurn_eq]
    cases first : hexDigit a with
    | none => exact rep.quoted.refuse (by omega)
    | some high =>
      have room : (rawPath (chr '%' :: a :: b :: rest)).length =
          (rawPath (b :: rest)).length + 2 := by
        rw [rawPath_cons _ (by decide), rawPath_cons _ (hexDigit_query first)]
      dsimp only
      rw [Turn.resume, loop_cons, turn, Option.bind_some]
      cases second : hexDigit b with
      | none =>
        rw [quotedSecondTurn_eq, second]
        exact rep.quoted.refuse (by omega)
      | some low =>
        rw [rawPath_cons _ (hexDigit_query second)] at room
        rw [Option.bind_some]
        by_cases zero : (high <<< 4) + low = 0
        · rw [if_pos zero, quotedSecondTurn_eq, second]
          dsimp only
          rw [if_pos zero]
          exact rep.quoted.refuse (by omega)
        · obtain ⟨m', same, follows⟩ := rep.quoted.escape proper second zero
          rw [if_neg zero, follow_cons]
          apply follows.ends
          · have writes := (rep.mono (show taken ≤ taken +
              (rawPath (chr '%' :: a :: b :: rest)).length by omega)).writes
            rcases same with rfl | rfl
            · exact writes
            · exact writes
          · intro p' m'' went rep'
            have ends := ih (index + 1 + 1 + 1)
              (rep'.mono (show taken + 1 ≤ taken + 3 by omega)) (proper.advance went)
            rw [room, show taken + ((rawPath rest).length + 1 + 2) =
              taken + 3 + (rawPath rest).length by omega]
            exact ends
  | case6 ch rest other percent ih =>
    have query : ch ≠ chr '?' := fun same => other (Or.inl same)
    have hash : ch ≠ chr '#' := fun same => other (Or.inr same)
    rw [follow, decode_other rest other percent, follow_cons, loop_cons, turn,
      rawPath_cons rest query]
    apply (rep.plainTurn proper percent query hash).ends (rep.mono (by omega)).writes
    intro p' m' went rep'
    have ends := ih (index + 1) rep' (proper.advance went)
    rw [show taken + ((rawPath rest).length + 1) = taken + 1 + (rawPath rest).length by omega]
    exact ends

theorem parse_ends (mergeSlashes : Bool) (rest : List UInt8) (r : Machine) :
    Ends mergeSlashes (rawPath (chr '/' :: rest)).length (follow mergeSlashes rest ⟨[], []⟩)
      (ngxHttpParseComplexUri mergeSlashes (chr '/' :: rest) r) := by
  have first : Rep 1 ⟨[], []⟩ (Machine.put { r with
      u := 0
      uriExt := none
      writes := [] } (chr '/')) := by
    refine ⟨show (0 : Int) ≤ 0 + 1 by decide, ?_, show (0 : Int) + 1 ≤ 1 by decide, ?_,
      fun _ set => by cases set⟩
    · rw [uri_put (le_refl _)]
      rfl
    · intro i member
      have zero : i = 0 := List.mem_singleton.mp member
      omega
  have proper : Place.Proper mergeSlashes ⟨[], []⟩ := ⟨List.not_mem_nil, by simp⟩
  have ends := loop_ends rest 1 first proper
  rw [rawPath_cons rest (by decide), Nat.add_comm]
  exact ends

end Runs

end NgxFormal.Http.ComplexUri
