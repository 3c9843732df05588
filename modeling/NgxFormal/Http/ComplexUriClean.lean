import NgxFormal.Http.ComplexUriRuns

/-! What a URI that `ngx_http_parse_complex_uri` accepts can contain. -/

namespace NgxFormal.Http.ComplexUri

open Lib Segments

/-- `r->uri` -/
def Parsed.uri (parsed : Parsed) (m : Machine) : List UInt8 :=
  (List.range parsed.uriLen.toNat).map fun (i : Nat) => m.data i

/-- The bytes of `r->exten`. -/
def Parsed.extenBytes (parsed : Parsed) (m : Machine) : Option (List UInt8) :=
  parsed.exten.map fun exten =>
    (List.range exten.2.toNat).map fun (i : Nat) => m.data (exten.1 + i)

section Places

variable {mergeSlashes : Bool} {p : Place}

theorem splitOn_base (dirs : List Segment) (text : List UInt8)
    (whole : ∀ dir ∈ dirs, chr '/' ∉ dir) :
    (base dirs ++ text).splitOn (chr '/') = [] :: (dirs.reverse ++ text.splitOn (chr '/')) := by
  induction dirs generalizing text with
  | nil =>
    rw [base, List.singleton_append, ← List.nil_append (chr '/' :: text),
      List.splitOn_append_cons_self_of_not_mem List.not_mem_nil]
    rfl
  | cons dir dirs ih =>
    have shape : base (dir :: dirs) ++ text = base dirs ++ (dir ++ chr '/' :: text) := by
      rw [base]
      simp
    rw [shape, ih _ fun other member => whole other (List.mem_cons_of_mem _ member),
      List.splitOn_append_cons_self_of_not_mem (whole dir List.mem_cons_self)]
    simp

theorem Place.Proper.splitOn (proper : p.Proper mergeSlashes) :
    p.uri.splitOn (chr '/') = [] :: (p.dirs.reverse ++ [p.name]) := by
  rw [Place.uri, splitOn_base p.dirs p.name fun dir member => (proper.dirs dir member).whole,
    List.splitOn_eq_singleton proper.whole]

theorem Place.Proper.inner (proper : p.Proper mergeSlashes) {word : List UInt8}
    (whole : chr '/' ∉ word) (inside : chr '/' :: (word ++ [chr '/']) <:+: p.uri) :
    word ∈ p.dirs := by
  have inner := mem_inner_of_infix whole inside
  rw [proper.splitOn, List.tail_cons, List.dropLast_concat] at inner
  exact List.mem_reverse.mp inner

theorem mem_base {dirs : List Segment} {ch : UInt8} (other : ch ≠ chr '/') :
    ch ∈ base dirs ↔ ∃ dir ∈ dirs, ch ∈ dir := by
  induction dirs with
  | nil => simp [base, other]
  | cons dir dirs ih =>
    rw [base, List.mem_append, List.mem_append, ih]
    simp [other, or_comm]

theorem head_uri (p : Place) : p.uri.head? = some (chr '/') := by
  have first (dirs : List Segment) (text : List UInt8) :
      (base dirs ++ text).head? = some (chr '/') := by
    induction dirs generalizing text with
    | nil => rfl
    | cons dir dirs ih =>
      rw [base, List.append_assoc, List.append_assoc]
      exact ih _
  exact first p.dirs p.name

theorem follow_iff {raw : List UInt8} :
    follow mergeSlashes raw ⟨[], []⟩ = some p ↔
      ∃ path closed, decode raw = some path ∧ path.splitOn (chr '/') = closed ++ [p.name] ∧
        directories mergeSlashes closed = some p.dirs := by
  constructor
  · exact follow_eq_some
  · rintro ⟨path, closed, decoded, split, opened⟩
    obtain ⟨closed', last, split', same⟩ :=
      @foldlM_advance mergeSlashes path ⟨[], []⟩ List.not_mem_nil
    rw [List.nil_append, split] at split'
    obtain ⟨rfl, ends⟩ := List.append_inj' split' rfl
    cases ends
    rw [follow, decoded, Option.bind_some, same]
    exact congrArg (Option.map _) opened

end Places

section Results

variable {mergeSlashes : Bool} {taken : Nat} {p : Place} {m : Machine} {parsed : Parsed}

theorem bytes_from (m : Machine) (n len : Nat) (length : m.u = (n + len : Nat)) :
    ((List.range len).map fun (i : Nat) => m.data ((n : Int) + i)) = m.uri.drop n := by
  have all : m.u.toNat = n + len := by omega
  apply List.ext_getElem
  · rw [List.length_map, List.length_range, List.length_drop, length_uri, all]
    omega
  · intro i _ _
    rw [List.getElem_map, List.getElem_range, List.getElem_drop]
    simp only [Machine.uri, List.getElem_map, List.getElem_range, Nat.cast_add]

theorem Rep.extenBytes (rep : Rep taken p m)
    (exten : parsed.exten = m.uriExt.map fun uriExt => (uriExt, m.u - uriExt))
    {ext : List UInt8} (set : parsed.extenBytes m = some ext) :
    ∃ stem, p.name = stem ++ chr '.' :: ext ∧ chr '.' ∉ ext := by
  rw [Parsed.extenBytes, exten, Option.map_map] at set
  obtain ⟨uriExt, marked, bytes⟩ := Option.map_eq_some_iff.mp set
  obtain ⟨_, stem, suffix, name, clear, place⟩ := rep.exten uriExt marked
  have uri : m.uri = (base p.dirs ++ stem ++ [chr '.']) ++ suffix := by
    rw [rep.uri, Place.uri, name]
    simp
  have length : m.u = ((base p.dirs ++ stem ++ [chr '.']).length + suffix.length : Nat) := by
    have start := rep.start
    rw [← List.length_append, ← uri, length_uri]
    omega
  have offset : uriExt = ((base p.dirs ++ stem ++ [chr '.']).length : Nat) := by omega
  have rest : (m.u - uriExt).toNat = suffix.length := by omega
  have found := bytes_from m _ _ length
  rw [uri, List.drop_left] at found
  dsimp only [Function.comp_apply] at bytes
  rw [rest, offset, found] at bytes
  subst bytes
  exact ⟨stem, name, clear⟩

end Results

/-- The walk along the segments of the URI never goes above the root. -/
def BelowRoot (uri : List UInt8) : Prop :=
  (walk here up 0 (uri.splitOn (chr '/'))).isSome

instance (uri : List UInt8) : Decidable (BelowRoot uri) :=
  inferInstanceAs (Decidable (_ = true))

/-- The decoded path ends in `..`, and the segments before it leave no named directory open. -/
def EndsAbove (mergeSlashes : Bool) (raw : List UInt8) : Prop :=
  ∃ path closed dirs, decode raw = some path ∧ path.splitOn (chr '/') = closed ++ [up] ∧
    directories mergeSlashes closed = some dirs ∧ ∀ dir ∈ dirs, dir = []

theorem Place.Proper.belowRoot {mergeSlashes : Bool} {p : Place}
    (proper : p.Proper mergeSlashes) :
    BelowRoot p.uri ↔ ¬ (p.name = up ∧ ∀ dir ∈ p.dirs, dir = []) := by
  have plain : ∀ name ∈ p.dirs.reverse, name ≠ here ∧ name ≠ up := by
    intro name member
    have kept := proper.dirs name (List.mem_reverse.mp member)
    exact ⟨kept.notHere, kept.notUp⟩
  have depth : p.dirs.reverse.countP (· ≠ []) = 0 ↔ ∀ dir ∈ p.dirs, dir = [] := by
    rw [List.countP_eq_zero]
    simp
  rw [BelowRoot, proper.splitOn, walk, if_pos (Or.inl rfl), walk_names _ _ _ plain, Nat.zero_add,
    ← depth, walk]
  generalize p.dirs.reverse.countP (· ≠ []) = count
  by_cases stays : p.name = [] ∨ p.name = here
  · have other : p.name ≠ up := by
      rcases stays with same | same <;> rw [same] <;> decide
    rw [if_pos stays]
    simp [walk, other]
  · rw [if_neg stays]
    by_cases dots : p.name = up
    · rw [if_pos dots]
      by_cases root : count = 0
      · simp [root, dots]
      · rw [if_neg root]
        simp [walk, root, dots]
    · rw [if_neg dots]
      simp [walk, dots]

/-- A URI that is accepted stays below the root if and only if it does not end in `..` with no
named directory left to go up from. -/
theorem complex_uri_below_root_iff (mergeSlashes : Bool) (rest : List UInt8) (r m : Machine)
    (parsed : Parsed)
    (accepted : ngxHttpParseComplexUri mergeSlashes (chr '/' :: rest) r = .ok parsed m) :
    BelowRoot (parsed.uri m) ↔ ¬ EndsAbove mergeSlashes rest := by
  have ends := parse_ends mergeSlashes rest r
  rw [accepted] at ends
  cases followed : follow mergeSlashes rest ⟨[], []⟩ with
  | none =>
    rw [followed] at ends
    exact ends.elim
  | some p =>
    rw [followed] at ends
    obtain ⟨proper, rep, length, _⟩ := ends
    have same : parsed.uri m = p.uri := by
      rw [← rep.uri, Machine.uri, Parsed.uri, length]
    obtain ⟨path, closed, decoded, split, opened⟩ := follow_eq_some followed
    rw [same, proper.belowRoot, EndsAbove, not_iff_not]
    constructor
    · rintro ⟨dots, unnamed⟩
      exact ⟨path, closed, p.dirs, decoded, dots ▸ split, opened, unnamed⟩
    · rintro ⟨path', closed', dirs, decoded', split', opened', unnamed⟩
      rw [decoded] at decoded'
      cases decoded'
      rw [split] at split'
      obtain ⟨rfl, last⟩ := List.append_inj' split' rfl
      rw [opened] at opened'
      cases opened'
      exact ⟨List.head_eq_of_cons_eq last, unnamed⟩

/-- A machine for runs on fixed input. -/
def freshMachine : Machine where
  u := 0
  data := fun _ => 0
  writes := []
  uriExt := none
  plusInUri := false
  quotedUri := false

/-- `/a/..` is accepted as it is, and its walk ends at the root. -/
theorem complex_uri_up_from_directory :
    ∃ parsed m, ngxHttpParseComplexUri true (chr '/' :: [chr 'a', chr '/', chr '.', chr '.'])
      freshMachine = .ok parsed m ∧ BelowRoot (parsed.uri m) := by
  obtain ⟨parsed, m, accepted⟩ : ∃ parsed m, ngxHttpParseComplexUri true
      (chr '/' :: [chr 'a', chr '/', chr '.', chr '.']) freshMachine = .ok parsed m :=
    ⟨_, _, rfl⟩
  refine ⟨parsed, m, accepted,
    (complex_uri_below_root_iff true _ freshMachine m parsed accepted).mpr ?_⟩
  rintro ⟨path, closed, dirs, decoded, split, opened, unnamed⟩
  cases decoded
  have segments : [[chr 'a'], up] = closed ++ [up] := split
  obtain ⟨rfl, _⟩ := List.append_inj' (show [[chr 'a']] ++ [up] = closed ++ [up] from segments) rfl
  cases opened
  exact absurd (unnamed [chr 'a'] List.mem_cons_self) (by decide)

/-- `/..` is accepted as it is. -/
theorem complex_uri_ends_above_root :
    ¬ ∀ (mergeSlashes : Bool) (rest : List UInt8) (r m : Machine) (parsed : Parsed),
      ngxHttpParseComplexUri mergeSlashes (chr '/' :: rest) r = .ok parsed m →
        BelowRoot (parsed.uri m) := by
  intro claim
  obtain ⟨parsed, m, accepted, uri⟩ : ∃ parsed m,
      ngxHttpParseComplexUri true (chr '/' :: [chr '.', chr '.']) freshMachine = .ok parsed m ∧
        parsed.uri m = [chr '/', chr '.', chr '.'] := ⟨_, _, rfl, rfl⟩
  have below := claim true [chr '.', chr '.'] freshMachine m parsed accepted
  rw [uri] at below
  exact absurd below (by decide)

/-- What an accepted URI is to look like, with the bytes of `r->exten`. -/
structure Clean (mergeSlashes : Bool) (uri : List UInt8) (exten : Option (List UInt8)) :
    Prop where
  slash : uri.head? = some (chr '/')
  here : ¬ chr '/' :: (here ++ [chr '/']) <:+: uri
  up : ¬ chr '/' :: (up ++ [chr '/']) <:+: uri
  nul : 0 ∉ uri
  merged : mergeSlashes = true → ¬ [chr '/', chr '/'] <:+: uri
  exten : ∀ ext, exten = some ext → ∃ last stem,
    (uri.splitOn (chr '/')).getLast? = some last ∧ last = stem ++ chr '.' :: ext ∧ chr '.' ∉ ext

/-- No segment with a NUL is still there after the dot segments have been resolved. -/
def NulFree (mergeSlashes : Bool) (raw : List UInt8) : Prop :=
  ∀ path closed last dirs, decode raw = some path → path.splitOn (chr '/') = closed ++ [last] →
    directories mergeSlashes closed = some dirs → 0 ∉ last ∧ ∀ dir ∈ dirs, 0 ∉ dir

/-- The parser stays within the buffer, and an accepted URI is clean. -/
def Sound (mergeSlashes : Bool) (uri : List UInt8) (r : Machine) : Prop :=
  (∀ i ∈ (ngxHttpParseComplexUri mergeSlashes uri r).machine.writes,
      0 ≤ i ∧ i < (rawPath uri).length) ∧
    ∀ parsed m, ngxHttpParseComplexUri mergeSlashes uri r = .ok parsed m →
      Clean mergeSlashes (parsed.uri m) (parsed.extenBytes m)

theorem nulFree_iff {mergeSlashes : Bool} {raw : List UInt8} :
    NulFree mergeSlashes raw ↔ ∀ p, follow mergeSlashes raw ⟨[], []⟩ = some p → 0 ∉ p.uri := by
  have nul (p : Place) : 0 ∉ p.uri ↔ 0 ∉ p.name ∧ ∀ dir ∈ p.dirs, 0 ∉ dir := by
    rw [Place.uri, List.mem_append, mem_base (show (0 : UInt8) ≠ chr '/' by decide)]
    push Not
    exact And.comm
  constructor
  · intro free p followed
    obtain ⟨path, closed, decoded, split, opened⟩ := follow_eq_some followed
    exact (nul p).mpr (free path closed p.name p.dirs decoded split opened)
  · intro free path closed last dirs decoded split opened
    exact (nul ⟨dirs, last⟩).mp
      (free ⟨dirs, last⟩ (follow_iff.mpr ⟨path, closed, decoded, split, opened⟩))

theorem Place.Proper.clean {mergeSlashes : Bool} {p : Place} (proper : p.Proper mergeSlashes)
    (nul : 0 ∉ p.uri) {exten : Option (List UInt8)}
    (last : ∀ ext, exten = some ext → ∃ stem, p.name = stem ++ chr '.' :: ext ∧ chr '.' ∉ ext) :
    Clean mergeSlashes p.uri exten where
  slash := head_uri p
  here := by
    intro inside
    exact (proper.dirs _ (proper.inner (by decide) inside)).notHere rfl
  up := by
    intro inside
    exact (proper.dirs _ (proper.inner (by decide) inside)).notUp rfl
  nul := nul
  merged := by
    intro merge inside
    exact (proper.dirs _ (proper.inner List.not_mem_nil inside)).named merge rfl
  exten := by
    intro ext set
    obtain ⟨stem, name, clear⟩ := last ext set
    refine ⟨p.name, stem, ?_, name, clear⟩
    rw [proper.splitOn, ← List.cons_append, List.getLast?_concat]

/-- On every raw URI that begins with `/` the parser returns, stays within the buffer, and
accepts only clean URIs, if and only if no raw NUL is left in a segment of the path. -/
theorem complex_uri_sound_iff (mergeSlashes : Bool) (rest : List UInt8) (r : Machine) :
    Sound mergeSlashes (chr '/' :: rest) r ↔ NulFree mergeSlashes rest := by
  have ends := parse_ends mergeSlashes rest r
  rw [Sound, nulFree_iff]
  cases followed : follow mergeSlashes rest ⟨[], []⟩ with
  | none =>
    rw [followed] at ends
    cases outcome : ngxHttpParseComplexUri mergeSlashes (chr '/' :: rest) r with
    | ok parsed m =>
      rw [outcome] at ends
      exact ends.elim
    | invalid m =>
      rw [outcome] at ends
      constructor
      · exact fun _ p some => by cases some
      · exact fun _ => ⟨ends, fun _ _ ok => by cases ok⟩
  | some p =>
    rw [followed] at ends
    cases outcome : ngxHttpParseComplexUri mergeSlashes (chr '/' :: rest) r with
    | invalid m =>
      rw [outcome] at ends
      exact ends.elim
    | ok parsed m =>
      rw [outcome] at ends
      obtain ⟨proper, rep, length, exten⟩ := ends
      have same : parsed.uri m = p.uri := by
        rw [← rep.uri, Machine.uri, Parsed.uri, length]
      constructor
      · rintro ⟨_, clean⟩ p' reached
        cases reached
        rw [← same]
        exact (clean parsed m rfl).nul
      · intro free
        refine ⟨rep.writes, ?_⟩
        intro parsed' m' ok
        cases ok
        rw [same]
        exact proper.clean (free p rfl) fun ext set => rep.extenBytes exten set

/-- `/%41 ` with a NUL behind it: the NUL stands in the URI that is returned. -/
theorem complex_uri_keeps_nul :
    ¬ ∀ (mergeSlashes : Bool) (rest : List UInt8) (r : Machine),
      Sound mergeSlashes (chr '/' :: rest) r := by
  intro claim
  have sound := (claim true [chr '%', chr '4', chr '1', chr ' ', 0] freshMachine).2
  obtain ⟨parsed, m, accepted, uri⟩ : ∃ parsed m,
      ngxHttpParseComplexUri true (chr '/' :: [chr '%', chr '4', chr '1', chr ' ', 0])
        freshMachine = .ok parsed m ∧
        parsed.uri m = [chr '/', chr 'A', chr ' ', 0] := ⟨_, _, rfl, rfl⟩
  have nul := (sound parsed m accepted).nul
  rw [uri] at nul
  exact absurd nul (by decide)

end NgxFormal.Http.ComplexUri
