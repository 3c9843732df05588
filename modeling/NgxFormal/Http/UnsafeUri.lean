import NgxFormal.Http.UriBytes
import NgxFormal.Lib.Links

/-! `ngx_http_parse_unsafe_uri`: the check of the URIs that redirects, SSI includes and DAV
destinations name.

The memory from `uri->data` on is a function, so that a byte behind the string can be read.
Every read is recorded. -/

namespace NgxFormal.Http.UnsafeUri

/-- `NGX_OK` with the new `uri->len`, and `args` as the index of its first byte and its length
where a `?` was found. -/
inductive Outcome where
  | ok (len : Nat) (args : Option (Nat × Nat))
  | refused
  deriving DecidableEq, Repr

/-- `p[0] == '.' && p[1] == '.' && ngx_path_separator(p[2])`, with the indices it reads. -/
def dotsAt (mem : Nat → UInt8) (p : Nat) : Bool × List Nat :=
  if mem p = chr '.' then
    if mem (p + 1) = chr '.' then (ngxPathSeparator (mem (p + 2)), [p, p + 1, p + 2])
    else (false, [p, p + 1])
  else (false, [p])

/-- The loop with `len` bytes left from `p` on. -/
def scan (mem : Nat → UInt8) : Nat → Nat → Outcome × List Nat
  | 0, p => (.ok p none, [])
  | len + 1, p =>
    let ch := mem p
    if usual ch then
      let rest := scan mem len (p + 1)
      (rest.1, p :: rest.2)
    else if ch = chr '?' then (.ok p (some (p + 1, len)), [p])
    else if ch = 0 then (.refused, [p])
    else if ngxPathSeparator ch && len + 1 > 2 then
      -- detect "/../"
      let dots := dotsAt mem (p + 1)
      if dots.1 then (.refused, p :: dots.2)
      else
        let rest := scan mem len (p + 1)
        (rest.1, p :: dots.2 ++ rest.2)
    else
      let rest := scan mem len (p + 1)
      (rest.1, p :: rest.2)

def NGX_HTTP_LOG_UNSAFE : Nat := 1

/-- The outcome, whether the refusal is logged, and the indices read. -/
def ngxHttpParseUnsafeUri (mem : Nat → UInt8) (len flags : Nat) : Outcome × Bool × List Nat :=
  let logged := flags &&& NGX_HTTP_LOG_UNSAFE ≠ 0
  if len = 0 then (.refused, logged, [])
  else if mem 0 = chr '?' then (.refused, logged, [0])
  else
    let dots := if mem 0 = chr '.' ∧ len = 3 then
        if mem 1 = chr '.' then (ngxPathSeparator (mem 2), [0, 1, 2]) else (false, [0, 1])
      else (false, [0])
    if dots.1 then (.refused, logged, dots.2)
    else
      let rest := scan mem len 0
      (rest.1, (rest.1 = .refused && logged), dots.2 ++ rest.2)

def bytes (mem : Nat → UInt8) (p len : Nat) : List UInt8 := (List.range' p len).map mem

/-- What stands before the first `?`. -/
def path (uri : List UInt8) : List UInt8 := uri.takeWhile (· ≠ chr '?')

abbrev dots : List UInt8 := [chr '.', chr '.']

/-- What the function is to guarantee for the string of `len` bytes. -/
def Guarded (mem : Nat → UInt8) (len flags : Nat) : Prop :=
  (∀ i ∈ (ngxHttpParseUnsafeUri mem len flags).2.2, i < len) ∧
    ∀ n args, (ngxHttpParseUnsafeUri mem len flags).1 = .ok n args →
      bytes mem 0 n = path (bytes mem 0 len) ∧ bytes mem 0 n ≠ [] ∧ 0 ∉ bytes mem 0 n ∧
        dots ∉ (bytes mem 0 n).splitOn (chr '/')

/-- The path has `..` as its first or its last segment. -/
def EdgeDots (path : List UInt8) : Prop :=
  path = dots ∨ dots ++ [chr '/'] <+: path ∨ chr '/' :: dots <:+ path

/-- The loop meets a NUL or `/../`. -/
def Stopped (path : List UInt8) : Prop :=
  0 ∈ path ∨ chr '/' :: (dots ++ [chr '/']) <:+: path

theorem bytes_succ (mem : Nat → UInt8) (p len : Nat) :
    bytes mem p (len + 1) = mem p :: bytes mem (p + 1) len := by
  rw [bytes, List.range'_succ, List.map_cons, bytes]

@[simp] theorem bytes_zero (mem : Nat → UInt8) (p : Nat) : bytes mem p 0 = [] := rfl

@[simp] theorem length_bytes (mem : Nat → UInt8) (p len : Nat) : (bytes mem p len).length = len := by
  rw [bytes, List.length_map, List.length_range']

theorem path_cons {ch : UInt8} (rest : List UInt8) (plain : ch ≠ chr '?') :
    path (ch :: rest) = ch :: path rest := by
  rw [path, List.takeWhile_cons_of_pos (by simpa using plain), path]

theorem path_query (rest : List UInt8) : path (chr '?' :: rest) = [] := by
  rw [path, List.takeWhile_cons_of_neg (by simp)]

/-- The test `p[0] == '.' && p[1] == '.' && p[2] == '/'` in the memory. -/
def DotsAt (mem : Nat → UInt8) (p : Nat) : Prop :=
  mem p = chr '.' ∧ mem (p + 1) = chr '.' ∧ mem (p + 2) = chr '/'

theorem dotsAt_iff (mem : Nat → UInt8) (p : Nat) : (dotsAt mem p).1 = true ↔ DotsAt mem p := by
  rw [dotsAt, DotsAt]
  split_ifs with first second
  · simp [first, second, ngxPathSeparator]
  · simp [second]
  · simp [first]

theorem dotsAt_reads (mem : Nat → UInt8) (p i : Nat) :
    i ∈ (dotsAt mem p).2 →
      i = p ∨ i = p + 1 ∨ (i = p + 2 ∧ mem p = chr '.' ∧ mem (p + 1) = chr '.') := by
  rw [dotsAt]
  split_ifs with first second
  · simp [first, second]
  · simp
    tauto
  · simp
    tauto

theorem dotsAt_reads_third (mem : Nat → UInt8) (p : Nat) (first : mem p = chr '.')
    (second : mem (p + 1) = chr '.') : p + 2 ∈ (dotsAt mem p).2 := by
  simp [dotsAt, first, second]

theorem prefix_path_iff (word uri : List UInt8) (plain : chr '?' ∉ word) :
    word <+: path uri ↔ word <+: uri := by
  induction word generalizing uri with
  | nil => simp
  | cons ch word ih =>
    obtain ⟨first, rest⟩ := not_or.mp (fun both => plain (List.mem_cons.mpr both))
    cases uri with
    | nil => simp [path]
    | cons c uri =>
      by_cases query : c = chr '?'
      · rw [query, path_query, List.cons_prefix_cons]
        simp [Ne.symm first]
      · rw [path_cons uri query, List.cons_prefix_cons, List.cons_prefix_cons, ih uri rest]

/-- `/../` at the front of what is left of the string. -/
theorem stopped_front (mem : Nat → UInt8) (p len : Nat) :
    chr '/' :: (dots ++ [chr '/']) <+: path (bytes mem p len) ↔
      3 < len ∧ mem p = chr '/' ∧ DotsAt mem (p + 1) := by
  rw [prefix_path_iff _ _ (by decide)]
  match len with
  | 0 => simp
  | 1 => simp [bytes_succ]
  | 2 => simp [bytes_succ]
  | 3 => simp [bytes_succ]
  | len + 4 =>
    simp only [bytes_succ, dots, List.cons_append, List.nil_append, List.cons_prefix_cons,
      List.nil_prefix, and_true, DotsAt]
    simp [eq_comm]

/-- The string ends with `/..` and has no `?`. -/
def EndsOpen (uri : List UInt8) : Prop := path uri = uri ∧ chr '/' :: dots <:+ uri

theorem stopped_cons {ch : UInt8} {rest : List UInt8} (nul : ch ≠ 0)
    (front : ¬ chr '/' :: (dots ++ [chr '/']) <+: ch :: rest) :
    Stopped (ch :: rest) ↔ Stopped rest := by
  rw [Stopped, Stopped, List.mem_cons, List.infix_cons_iff]
  simp only [front, false_or, Ne.symm nul]

theorem not_stopped_short (text : List UInt8) (short : text.length ≤ 3) (clear : 0 ∉ text) :
    ¬ Stopped text := by
  rintro (nul | ⟨before, after, rfl⟩)
  · exact clear nul
  · simp at short
    omega

/-- An iteration that goes on reads `p`, and from a slash what the test for the dots reads. -/
theorem scan_goes_on (mem : Nat → UInt8) (len p : Nat) (query : mem p ≠ chr '?')
    (nul : mem p ≠ 0) (dots : ¬ (mem p = chr '/' ∧ 2 ≤ len ∧ DotsAt mem (p + 1))) :
    (scan mem (len + 1) p).1 = (scan mem len (p + 1)).1 ∧
      ∀ i, i ∈ (scan mem (len + 1) p).2 ↔
        i = p ∨ (mem p = chr '/' ∧ 2 ≤ len ∧ i ∈ (dotsAt mem (p + 1)).2) ∨
          i ∈ (scan mem len (p + 1)).2 := by
  rw [scan]
  dsimp only
  by_cases plain : usual (mem p) = true
  · have slash : mem p ≠ chr '/' := by
      intro same
      rw [same] at plain
      revert plain
      decide
    rw [if_pos plain]
    simp [slash]
  · rw [if_neg plain, if_neg query, if_neg nul]
    by_cases slash : mem p = chr '/' ∧ 2 ≤ len
    · have missed : (dotsAt mem (p + 1)).1 = false := by
        rw [Bool.eq_false_iff, ne_eq, dotsAt_iff]
        exact fun hit => dots ⟨slash.1, slash.2, hit⟩
      have long : 2 < len + 1 := by omega
      simp [slash, ngxPathSeparator, missed, long]
    · have short : (ngxPathSeparator (mem p) && decide (len + 1 > 2)) = false := by
        rw [Bool.eq_false_iff, ne_eq, Bool.and_eq_true, ngxPathSeparator, decide_eq_true_iff,
          decide_eq_true_iff]
        exact fun both => slash ⟨both.1, by omega⟩
      rw [short, if_neg (by decide)]
      have never (i : Nat) : ¬ (mem p = chr '/' ∧ 2 ≤ len ∧ i ∈ (dotsAt mem (p + 1)).2) :=
        fun all => slash ⟨all.1, all.2.1⟩
      simp [never]

theorem endsOpen_cons (mem : Nat → UInt8) (len p : Nat) (query : mem p ≠ chr '?') :
    EndsOpen (mem p :: bytes mem (p + 1) len) ↔
      EndsOpen (bytes mem (p + 1) len) ∨
        (mem p = chr '/' ∧ len = 2 ∧ mem (p + 1) = chr '.' ∧ mem (p + 2) = chr '.') := by
  have here : chr '/' :: dots = mem p :: bytes mem (p + 1) len ↔
      mem p = chr '/' ∧ len = 2 ∧ mem (p + 1) = chr '.' ∧ mem (p + 2) = chr '.' := by
    match len with
    | 0 => simp
    | 1 => simp [bytes_succ]
    | 2 =>
      simp [bytes_succ, dots]
      simp [eq_comm]
    | len + 3 => simp [bytes_succ]
  rw [EndsOpen, EndsOpen, path_cons _ query, List.cons_inj_right, List.suffix_cons_iff, here,
    and_or_left, or_comm]
  refine or_congr Iff.rfl ⟨fun both => both.2, fun both => ⟨?_, both⟩⟩
  obtain ⟨_, rfl, first, second⟩ := both
  rw [bytes_succ, bytes_succ, bytes_zero, first, second]
  decide

/-- The test for `/../` succeeds: the string goes on behind it, or its last slash was read
behind the end. -/
theorem scan_dots (mem : Nat → UInt8) (len p : Nat)
    (hit : mem p = chr '/' ∧ 2 ≤ len ∧ DotsAt mem (p + 1)) :
    scan mem (len + 1) p = (.refused, [p, p + 1, p + 2, p + 3]) := by
  obtain ⟨slash, long, first, second, third⟩ := hit
  have more : 2 < len + 1 := by omega
  have found : dotsAt mem (p + 1) = (true, [p + 1, p + 2, p + 3]) := by
    simp [dotsAt, first, second, third, ngxPathSeparator]
  rw [scan]
  simp only [slash, found, ngxPathSeparator, more]
  rfl

/-- From `p` on: a NUL or `/../` ends the loop inside the string; else a string that ends with
`/..` makes it read behind the end; else it returns the path. -/
theorem scan_spec (mem : Nat → UInt8) (len p : Nat) :
    (Stopped (path (bytes mem p len)) →
        (scan mem len p).1 = .refused ∧ ∀ i ∈ (scan mem len p).2, i < p + len) ∧
      (¬ Stopped (path (bytes mem p len)) → EndsOpen (bytes mem p len) →
        p + len ∈ (scan mem len p).2) ∧
      (¬ Stopped (path (bytes mem p len)) → ¬ EndsOpen (bytes mem p len) →
        (∃ args, (scan mem len p).1 = .ok (p + (path (bytes mem p len)).length) args) ∧
          ∀ i ∈ (scan mem len p).2, i < p + len) := by
  induction len generalizing p with
  | zero =>
    have still : ¬ Stopped (path (bytes mem p 0)) := by simp [Stopped, path]
    have shut : ¬ EndsOpen (bytes mem p 0) := by simp [EndsOpen]
    exact ⟨fun stop => absurd stop still, fun _ opens => absurd opens shut,
      fun _ _ => ⟨⟨none, rfl⟩, fun i member => by cases member⟩⟩
  | succ len ih =>
    have front := stopped_front mem p (len + 1)
    rw [bytes_succ] at front ⊢
    by_cases query : mem p = chr '?'
    · have shut : ¬ EndsOpen (mem p :: bytes mem (p + 1) len) := by
        rintro ⟨whole, _⟩
        rw [query, path_query] at whole
        cases whole
      have found : scan mem (len + 1) p = (.ok p (some (p + 1, len)), [p]) := by
        rw [scan, query]
        rfl
      rw [found, query, path_query]
      rw [query] at shut
      refine ⟨fun stop => ?_, fun _ opens => absurd opens shut, fun _ _ => ⟨⟨_, rfl⟩, ?_⟩⟩
      · simp [Stopped] at stop
      · simp
    rw [path_cons _ query] at front ⊢
    by_cases nul : mem p = 0
    · have stop : Stopped (mem p :: path (bytes mem (p + 1) len)) := by
        rw [nul]
        exact Or.inl List.mem_cons_self
      have found : scan mem (len + 1) p = (.refused, [p]) := by
        rw [scan, nul]
        rfl
      rw [found]
      refine ⟨fun _ => ⟨rfl, by simp⟩, fun still => absurd stop still,
        fun still => absurd stop still⟩
    rw [endsOpen_cons mem len p query]
    by_cases hit : mem p = chr '/' ∧ 2 ≤ len ∧ DotsAt mem (p + 1)
    · rw [scan_dots mem len p hit]
      by_cases inside : 2 < len
      · have stop : Stopped (mem p :: path (bytes mem (p + 1) len)) :=
          Or.inr (front.mpr ⟨by omega, hit.1, hit.2.2⟩).isInfix
        refine ⟨fun _ => ⟨rfl, ?_⟩, fun still => absurd stop still,
          fun still => absurd stop still⟩
        simp
        omega
      · obtain ⟨slash, _, first, second, third⟩ := hit
        have two : len = 2 := by omega
        subst two
        have opens : mem p = chr '/' ∧ 2 = 2 ∧ mem (p + 1) = chr '.' ∧ mem (p + 2) = chr '.' :=
          ⟨slash, rfl, first, second⟩
        refine ⟨fun stop => absurd stop ?_, fun _ _ => by simp,
          fun _ shut => absurd (Or.inr opens) shut⟩
        rw [bytes_succ, bytes_succ, bytes_zero, slash, first, second]
        exact not_stopped_short _ (by decide) (by decide)
    · obtain ⟨same, reads⟩ := scan_goes_on mem len p query nul hit
      obtain ⟨stopped, opened, shut⟩ := ih (p + 1)
      rw [stopped_cons nul (fun start => hit (by
        obtain ⟨long, slash, found⟩ := front.mp start
        exact ⟨slash, by omega, found⟩))]
      have inside (i : Nat) (closed : ¬ (mem p = chr '/' ∧ len = 2 ∧
          mem (p + 1) = chr '.' ∧ mem (p + 2) = chr '.'))
          (rest : ∀ i ∈ (scan mem len (p + 1)).2, i < p + 1 + len)
          (member : i ∈ (scan mem (len + 1) p).2) : i < p + (len + 1) := by
        rcases (reads i).mp member with first | ⟨slash, long, tested⟩ | later
        · omega
        · rcases dotsAt_reads mem (p + 1) i tested with one | two | ⟨three, first, second⟩
          · omega
          · omega
          · have more : len ≠ 2 := fun two => closed ⟨slash, two, first, second⟩
            omega
        · have bound := rest i later
          omega
      refine ⟨fun stop => ⟨same.trans (stopped stop).1, fun i => ?_⟩, ?_, ?_⟩
      · apply inside i
        · rintro ⟨slash, rfl, first, second⟩
          rw [bytes_succ, bytes_succ, bytes_zero, first, second] at stop
          exact not_stopped_short _ (by decide) (by decide) stop
        · exact (stopped stop).2
      · rintro still (opens | ⟨slash, rfl, first, second⟩)
        · have beyond := opened still opens
          rw [reads]
          refine Or.inr (Or.inr ?_)
          have place : p + (len + 1) = p + 1 + len := by omega
          rw [place]
          exact beyond
        · rw [reads]
          exact Or.inr (Or.inl ⟨slash, by omega, dotsAt_reads_third mem (p + 1) first second⟩)
      · intro still closed
        rw [not_or] at closed
        obtain ⟨⟨args, returned⟩, bound⟩ := shut still closed.1
        refine ⟨⟨args, ?_⟩, fun i => inside i closed.2 bound⟩
        rw [same, returned, List.length_cons]
        congr 1
        omega

theorem take_bytes (mem : Nat → UInt8) (len n : Nat) (le : n ≤ len) :
    bytes mem 0 n = (bytes mem 0 len).take n := by
  rw [bytes, bytes, ← List.map_take, List.take_range'_of_length_ge le]

theorem bytes_path (mem : Nat → UInt8) (len : Nat) :
    bytes mem 0 (path (bytes mem 0 len)).length = path (bytes mem 0 len) := by
  have start : path (bytes mem 0 len) <+: bytes mem 0 len := List.takeWhile_prefix _
  have short := start.length_le
  rw [length_bytes] at short
  rw [take_bytes mem len _ short]
  exact (List.prefix_iff_eq_take.mp start).symm

theorem not_edgeDots_nil : ¬ EdgeDots [] := by simp [EdgeDots]

theorem refused_early (mem : Nat → UInt8) (len flags : Nat)
    (early : len = 0 ∨ mem 0 = chr '?' ∨ bytes mem 0 len = dots ++ [chr '/']) :
    (ngxHttpParseUnsafeUri mem len flags).1 = .refused ∧
      ∀ i ∈ (ngxHttpParseUnsafeUri mem len flags).2.2, i < len := by
  rw [ngxHttpParseUnsafeUri]
  dsimp only
  by_cases empty : len = 0
  · simp [empty]
  rw [if_neg empty]
  by_cases query : mem 0 = chr '?'
  · simp [query]
    omega
  rw [if_neg query]
  have whole : bytes mem 0 len = dots ++ [chr '/'] := by
    rcases early with none | first | whole
    · exact absurd none empty
    · exact absurd first query
    · exact whole
  have three : len = 3 := by
    have count := congrArg List.length whole
    simpa using count
  subst three
  simp only [bytes_succ, bytes_zero, dots, List.cons_append, List.nil_append, List.cons.injEq,
    and_true] at whole
  simp [whole, ngxPathSeparator]

theorem refused_late (mem : Nat → UInt8) (len flags : Nat)
    (late : ¬ (len = 0 ∨ mem 0 = chr '?' ∨ bytes mem 0 len = dots ++ [chr '/'])) :
    (ngxHttpParseUnsafeUri mem len flags).1 = (scan mem len 0).1 ∧
      ∃ tested, (ngxHttpParseUnsafeUri mem len flags).2.2 = tested ++ (scan mem len 0).2 ∧
        ∀ i ∈ tested, i < len := by
  obtain ⟨empty, others⟩ := not_or.mp late
  obtain ⟨query, whole⟩ := not_or.mp others
  rw [ngxHttpParseUnsafeUri]
  dsimp only
  rw [if_neg empty, if_neg query]
  by_cases three : mem 0 = chr '.' ∧ len = 3
  · rw [if_pos three]
    obtain ⟨first, rfl⟩ := three
    by_cases second : mem 1 = chr '.'
    · have other : ngxPathSeparator (mem 2) = false := by
        rw [ngxPathSeparator, decide_eq_false_iff_not]
        intro slash
        apply whole
        rw [bytes_succ, bytes_succ, bytes_succ, bytes_zero, first, second, slash]
        rfl
      rw [if_pos second, other]
      exact ⟨rfl, [0, 1, 2], rfl, by simp⟩
    · rw [if_neg second]
      exact ⟨rfl, [0, 1], rfl, by simp⟩
  · rw [if_neg three]
    exact ⟨rfl, [0], rfl, by simp; omega⟩

/-- The function guarantees its result if and only if `..` is neither the first nor the last
segment of the path, or a test that it makes before the end refuses the URI. -/
theorem unsafe_uri_guarded_iff (mem : Nat → UInt8) (len flags : Nat) :
    Guarded mem len flags ↔
      (EdgeDots (path (bytes mem 0 len)) →
        Stopped (path (bytes mem 0 len)) ∨ bytes mem 0 len = dots ++ [chr '/']) := by
  by_cases early : len = 0 ∨ mem 0 = chr '?' ∨ bytes mem 0 len = dots ++ [chr '/']
  · obtain ⟨refused, reads⟩ := refused_early mem len flags early
    refine iff_of_true ⟨reads, ?_⟩ ?_
    · intro n args returned
      rw [refused] at returned
      cases returned
    · intro edge
      rcases early with rfl | query | whole
      · exact absurd edge not_edgeDots_nil
      · cases len with
        | zero => exact absurd edge not_edgeDots_nil
        | succ len =>
          rw [bytes_succ, query, path_query] at edge
          exact absurd edge not_edgeDots_nil
      · exact Or.inr whole
  obtain ⟨outcome, tested, reads, before⟩ := refused_late mem len flags early
  obtain ⟨stopped, opened, shut⟩ := scan_spec mem len 0
  rw [Nat.zero_add] at opened shut stopped
  rw [not_or, not_or] at early
  simp only [early.2.2, or_false]
  by_cases stop : Stopped (path (bytes mem 0 len))
  · obtain ⟨refused, inside⟩ := stopped stop
    refine iff_of_true ⟨?_, ?_⟩ (fun _ => stop)
    · rw [reads, List.forall_mem_append]
      exact ⟨before, inside⟩
    · intro n args returned
      rw [outcome, refused] at returned
      cases returned
  by_cases opens : EndsOpen (bytes mem 0 len)
  · refine iff_of_false (fun guarded => ?_) (fun guarded => stop (guarded ?_))
    · have beyond := guarded.1 len (by
        rw [reads]
        exact List.mem_append_right tested (opened stop opens))
      exact lt_irrefl len beyond
    · rw [opens.1]
      exact Or.inr (Or.inr opens.2)
  · obtain ⟨⟨args, returned⟩, inside⟩ := shut stop opens
    have path_ne : path (bytes mem 0 len) ≠ [] := by
      cases len with
      | zero => exact absurd rfl early.1
      | succ len =>
        rw [bytes_succ, path_cons _ early.2.1]
        exact List.cons_ne_nil _ _
    have segment := @Lib.Segments.mem_splitOn_iff_infix _ _ (chr '/') dots
      (path (bytes mem 0 len)) (by decide)
    rw [Stopped, not_or] at stop
    rw [← EdgeDots] at segment
    constructor
    · intro guarded edge
      have kept := guarded.2 _ args (outcome.trans returned)
      rw [bytes_path] at kept
      exact absurd (segment.mpr (Or.inl edge)) kept.2.2.2
    · intro clear
      refine ⟨?_, ?_⟩
      · rw [reads, List.forall_mem_append]
        exact ⟨before, by simpa using inside⟩
      · intro n args' same
        rw [outcome, returned] at same
        cases same
        rw [bytes_path]
        refine ⟨rfl, path_ne, stop.1, fun member => ?_⟩
        rcases segment.mp member with edge | middle
        · rcases clear edge with nul | middle
          · exact stop.1 nul
          · exact stop.2 middle
        · exact stop.2 middle

/-- The string `/..` with a 0 behind it is let through, after a read behind its end. -/
theorem unsafe_uri_last_dots :
    ∃ mem : Nat → UInt8, bytes mem 0 3 = [chr '/', chr '.', chr '.'] ∧
      (ngxHttpParseUnsafeUri mem 3 0).1 = .ok 3 none ∧
      3 ∈ (ngxHttpParseUnsafeUri mem 3 0).2.2 ∧ ¬ Guarded mem 3 0 := by
  refine ⟨fun i => if i = 0 then chr '/' else if i ≤ 2 then chr '.' else 0,
    by decide, by decide, by decide, ?_⟩
  intro guarded
  exact absurd (guarded.1 3 (by decide)) (by decide)

end NgxFormal.Http.UnsafeUri
