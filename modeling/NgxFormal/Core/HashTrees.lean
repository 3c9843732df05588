import NgxFormal.Core.HashOrder

/-! The tree of hashes that `ngx_hash_wildcard_init` builds for the rules of a level. -/

namespace NgxFormal.Core.Hash

open Lib Lib.Runs Lib.LongestMatch

/-- The name lists of the recursive calls. -/
inductive LevelOf (names : List HashKey) : List HashKey → Prop where
  | top : LevelOf names names
  | next {level : List HashKey} {group : HashKey × List HashKey} :
      LevelOf names level → group ∈ runs sameLabel level →
        LevelOf names (nextNames group.1 group.2)

/-- `curr_names` without its values, on which the layout does not depend. -/
def labelNames (hashKey : List UInt8 → Nat) (groups : List (HashKey × List HashKey)) :
    List HashKey :=
  groups.map fun group => ⟨labelOf group.1.key, false, hashKey (labelOf group.1.key), 0⟩

/-- At the size that `ngx_hash_init` settles on, no bucket with its last pointer and the rounding
to cache lines reaches `2^16` bytes. -/
def Roomy (cacheline : Nat) (hinit : HashInit) (names : List HashKey) : Prop :=
  ∀ size, Chosen hinit names size → ∀ k, trueSum size names k + 8 + cacheline ≤ 65536

theorem LevelOf.trans {top mid low : List HashKey} (first : LevelOf top mid)
    (second : LevelOf mid low) : LevelOf top low := by
  induction second with
  | top => exact first
  | next _ member ih => exact ih.next member

section Blank

def blank (names : List HashKey) : List HashKey := names.map fun name => { name with value := 0 }

variable {names : List HashKey} {size : Nat}

theorem trueSum_blank (k : Nat) : trueSum size (blank names) k = trueSum size names k := by
  induction names with
  | nil => rfl
  | cons name rest ih =>
    rw [blank, List.map_cons, trueSum_cons, trueSum_cons, ← ih]
    rfl

theorem present_blank : present (blank names) = blank (present names) := by
  rw [present, blank, List.filter_map]
  rfl

theorem fill_blank (bucketSize : Nat) (test : Nat → Nat) :
    fill size bucketSize (blank names) test = fill size bucketSize names test := by
  induction names generalizing test with
  | nil => rfl
  | cons name rest ih =>
    rw [blank, List.map_cons, fill, fill]
    have sum : eltSize { name with value := 0 } = eltSize name := rfl
    simp only [sum]
    split
    · rfl
    · exact ih _

theorem Chosen.blank {hinit : HashInit} (chosen : Chosen hinit names size) :
    Chosen hinit (blank names) size := by
  have start : startSize hinit (Hash.blank names) = startSize hinit names := by
    simp only [startSize, Hash.blank, List.length_map]
  refine ⟨?_, chosen.below_max, ?_, ?_⟩
  · rw [start]
    exact chosen.from_start
  · rw [present_blank, fill_blank]
    exact chosen.passes
  · intro smaller low high
    rw [start] at low
    rw [present_blank, fill_blank]
    exact chosen.first smaller low high

end Blank

/-- Without a bucket of `2^16` bytes, the search with 16-bit sums is right for any bucket size. -/
theorem ngxHashInit_roomy {cacheline elts : Nat} {memory : Memory} {hinit : HashInit}
    {names : List HashKey} {table : HashTable} (word : 8 ∣ cacheline) (line : cacheline ∣ 65536)
    (placed : 0 < elts) (admissible : Admissible names)
    (roomy : Roomy cacheline hinit (blank names))
    (built : ngxHashInit cacheline elts memory hinit names = some table) :
    Correct cacheline elts names table := by
  obtain ⟨size, chosen, rfl, _⟩ := ngxHashInit_some built
  have room : ∀ k, trueSum size names k + 8 + cacheline ≤ 65536 := by
    intro k
    rw [← trueSum_blank]
    exact roomy size chosen.blank k
  have fits : Fits (65536 - 8 - cacheline) size names := fun k => by
    have := room k
    omega
  have accepted : Accepted cacheline elts (65536 - 8 - cacheline) size names :=
    { word := word
      line := line
      placed := placed
      shown := admissible.present_eq
      used := Nat.lt_of_lt_of_le (startSize_pos hinit names) chosen.from_start
      bound := by
        have := room 0
        omega
      small := by
        intro name member
        obtain ⟨before, after, split⟩ := List.append_of_mem member
        have held := @trueSum_pos size _ _ _ _ split
        have := fits (name.keyHash % size)
        omega
      tested := by
        intro before name after split
        have total := fits (name.keyHash % size)
        have whole : names = (before ++ [name]) ++ after := by
          rw [split, List.append_assoc, List.singleton_append]
        rw [whole, trueSum_append] at total
        exact Nat.le_trans (Nat.mod_le _ _) (by omega) }
  exact accepted.correct_of_fits admissible fits

section Tree

def tagOf : Option (Rule Label) → Nat
  | none => 3
  | some rule => if rule.ending then 3 else 2

def ownValue : Option (Rule Label) → Nat
  | none => 0
  | some rule => rule.value

def dataValue : Option (Rule Label) → Nat
  | none => 0
  | some rule => if rule.ending then rule.value + 1 else rule.value

/-- An address of `ngx_pcalloc`. -/
def Pointer (addr : Nat) : Prop := 0 < addr ∧ addr < 2 ^ 64 ∧ 8 ∣ addr

/-- What the value of a label has to be, for `rep` at the next level. -/
def Entry (rep : Nat → List (Rule Label) → Nat → Prop) (rules : List (Rule Label)) (label : Label)
    (value : Nat) : Prop :=
  (below label rules = [] ∧ value = dataValue (single label rules)) ∨
  (below label rules ≠ [] ∧ ∃ addr, Pointer addr ∧ value = addr + tagOf (single label rules) ∧
    rep addr (below label rules) (ownValue (single label rules)))

def Holds (rep : Nat → List (Rule Label) → Nat → Prop) (table : HashTable)
    (rules : List (Rule Label)) : Prop :=
  ∀ label fuel, rules.length < fuel →
    ∃ value, ngxHashFind table fuel (ngxHashKey label) label = some value ∧
      Entry rep rules label value

/-- The wildcard hash at an address stands for the rules, `depth` levels deep at most, with a
value for the names that end above it. -/
def Rep (heap : Wildcards) : Nat → Nat → List (Rule Label) → Nat → Prop
  | 0, _, _, _ => False
  | depth + 1, addr, rules, value =>
    ∃ table, heap addr = some ⟨table, value⟩ ∧ Holds (Rep heap depth) table rules

def Extends (heap heap' : Wildcards) : Prop := ∀ addr wdc, heap addr = some wdc → heap' addr = some wdc

theorem Extends.refl (heap : Wildcards) : Extends heap heap := fun _ _ held => held

theorem Extends.trans {first second third : Wildcards} (one : Extends first second)
    (two : Extends second third) : Extends first third :=
  fun addr wdc held => two addr wdc (one addr wdc held)

theorem Extends.update {heap : Wildcards} {addr : Nat} (free : heap addr = none)
    (wdc : Option HashWildcard) : Extends heap (Function.update heap addr wdc) := by
  intro other held found
  rw [Function.update_of_ne _ _ _]
  · exact found
  · rintro rfl
    rw [free] at found
    cases found

variable {heap heap' : Wildcards} {rules : List (Rule Label)}

theorem Entry.mono {rep rep' : Nat → List (Rule Label) → Nat → Prop} {label : Label} {value : Nat}
    (stronger : ∀ addr rules value, rep addr rules value → rep' addr rules value)
    (entry : Entry rep rules label value) : Entry rep' rules label value := by
  rcases entry with data | ⟨some_below, addr, pointer, isValue, rest⟩
  · exact Or.inl data
  · exact Or.inr ⟨some_below, addr, pointer, isValue, stronger _ _ _ rest⟩

theorem Holds.mono {rep rep' : Nat → List (Rule Label) → Nat → Prop} {table : HashTable}
    (stronger : ∀ addr rules value, rep addr rules value → rep' addr rules value)
    (holds : Holds rep table rules) : Holds rep' table rules := by
  intro label fuel enough
  obtain ⟨value, found, entry⟩ := holds label fuel enough
  exact ⟨value, found, entry.mono stronger⟩

theorem Rep.grow (bigger : Extends heap heap') (depth : Nat) (addr : Nat)
    (rules : List (Rule Label)) (value : Nat) (rep : Rep heap depth addr rules value) :
    Rep heap' depth addr rules value := by
  induction depth generalizing addr rules value with
  | zero => exact rep
  | succ depth ih =>
    obtain ⟨table, held, holds⟩ := rep
    exact ⟨table, bigger _ _ held, holds.mono ih⟩

/-- What a call leaves: a new wildcard hash, whose value the caller may still set. -/
def Built (heap heap' : Wildcards) (depth addr : Nat) (rules : List (Rule Label)) : Prop :=
  ∃ mid table, Extends heap mid ∧ mid addr = none ∧ Pointer addr ∧
    heap' = Function.update mid addr (some ⟨table, 0⟩) ∧
    ∀ value, Rep (Function.update mid addr (some ⟨table, value⟩)) depth addr rules value

theorem or_tag {a t : Nat} (aligned : 4 ∣ a) (small : t < 4) : a ||| t = a + t := by
  obtain ⟨k, rfl⟩ := aligned
  exact (@Nat.two_pow_add_eq_or_of_lt 2 t small k).symm

end Tree

section Init

variable {heap heap' : Wildcards} {rules others : List (Rule Label)} {first : Rule Label}
  {h : Label} {depth : Nat}

theorem RunOf.single_alone (run : RunOf rules h first others) (path : first.path = [h]) :
    single h rules = some first := by
  cases found : single h rules with
  | none => exact absurd path (single_none found first run.member)
  | some rule =>
    obtain ⟨member, alone⟩ := single_some found
    rw [run.alone rule member alone]

theorem RunOf.single_behind (run : RunOf rules h first others) {left : Rule Label}
    (deeper : first.behind h = some left) : single h rules = none := by
  cases found : single h rules with
  | none => rfl
  | some rule =>
    obtain ⟨member, alone⟩ := single_some found
    rw [← run.alone rule member alone, Rule.behind, alone] at deeper
    cases deeper

theorem entryValue_spec {build : List HashKey → Wildcards → Option (Nat × Wildcards)} {value : Nat}
    (level : Level rules) (free : dot ∉ h) (run : RunOf rules h first others)
    (correct : ∀ addr heap', build ((below h rules).map storedKey) heap = some (addr, heap') →
      Built heap heap' depth addr (below h rules))
    (made : entryValue build (storedKey first) (others.map storedKey) heap = some (value, heap')) :
    Extends heap heap' ∧ Entry (Rep heap' depth) rules h value := by
  have aligned := (level.valued first run.member).2.2
  rw [entryValue, run.nextNames_eq level free] at made
  simp only [List.map_eq_nil_iff, show (storedKey first).key = ruleText first from rfl,
    show (storedKey first).value = first.value from rfl] at made
  by_cases leaf : below h rules = []
  · rw [if_pos leaf, Option.some.injEq, Prod.mk.injEq] at made
    obtain ⟨isValue, rfl⟩ := made
    refine ⟨Extends.refl heap, Or.inl ⟨leaf, ?_⟩⟩
    rcases path_cases run.path with ⟨alone, _⟩ | ⟨left, found⟩
    · rw [run.single_alone alone, dataValue, ← isValue]
      simp only [(labelLen_single free alone).2, or_tag aligned (by decide : 1 < 4)]
    · rw [run.below, List.filterMap_cons, found] at leaf
      cases leaf
  · rw [if_neg leaf, Option.map_eq_some_iff] at made
    obtain ⟨⟨wdc, after⟩, called, made⟩ := made
    rw [Prod.mk.injEq] at made
    obtain ⟨isValue, isHeap⟩ := made
    dsimp only at isValue isHeap
    obtain ⟨mid, table, bigger, new, pointer, isAfter, rep⟩ := correct wdc after called
    have four : 4 ∣ wdc := Nat.dvd_trans (by decide) pointer.2.2
    rcases path_cases run.path with ⟨alone, _⟩ | ⟨left, found⟩
    · obtain ⟨whole, dotIff⟩ := labelLen_single free alone
      have held : after wdc = some ⟨table, 0⟩ := by rw [isAfter, Function.update_self]
      rw [if_pos whole, held, isAfter, Option.map_some, Function.update_idem] at isHeap
      rw [← isHeap]
      refine ⟨bigger.trans (Extends.update new _), Or.inr ⟨leaf, wdc, pointer, ?_, ?_⟩⟩
      · rw [run.single_alone alone, tagOf, ← isValue]
        simp only [dotIff]
        split
        · exact or_tag four (by decide)
        · exact or_tag four (by decide)
      · rw [run.single_alone alone]
        exact rep first.value
    · obtain ⟨inside, len⟩ := labelLen_behind free found
      have longer : (ruleText first).length ≠ labelLen (ruleText first) := by
        rw [len]
        exact level.longer_behind run.member found
      rw [if_neg longer, isAfter] at isHeap
      rw [← isHeap]
      refine ⟨bigger.trans (Extends.update new _), Or.inr ⟨leaf, wdc, pointer, ?_, ?_⟩⟩
      · rw [run.single_behind found, tagOf, ← isValue, if_pos inside]
        exact or_tag four (by decide)
      · rw [run.single_behind found]
        exact rep 0

theorem currNames_spec {build : List HashKey → Wildcards → Option (Nat × Wildcards)}
    {hashKey : List UInt8 → Nat} (level : Level rules)
    (groups : List (HashKey × List HashKey)) {curr : List HashKey}
    (inside : ∀ group ∈ groups, group ∈ runs sameLabel (rules.map storedKey))
    (correct : ∀ group ∈ groups, ∀ heap addr heap',
      build (nextNames group.1 group.2) heap = some (addr, heap') →
        Built heap heap' depth addr (below (labelOf group.1.key) rules))
    (made : currNames hashKey build groups heap = some (curr, heap')) :
    Extends heap heap' ∧ blank curr = labelNames hashKey groups ∧
      ∀ name ∈ curr, Entry (Rep heap' depth) rules name.key name.value := by
  induction groups generalizing heap curr with
  | nil =>
    rw [currNames, Option.some.injEq, Prod.mk.injEq] at made
    obtain ⟨rfl, rfl⟩ := made
    exact ⟨Extends.refl heap, rfl, by simp⟩
  | cons group groups ih =>
    rw [currNames, Option.bind_eq_some_iff] at made
    obtain ⟨⟨value, mid⟩, entryMade, made⟩ := made
    rw [Option.map_eq_some_iff] at made
    obtain ⟨⟨rest, after⟩, restMade, made⟩ := made
    rw [Prod.mk.injEq] at made
    obtain ⟨rfl, rfl⟩ := made
    obtain ⟨bigger, labels, entries⟩ := ih
      (fun other member => inside other (List.mem_cons_of_mem group member))
      (fun other member => correct other (List.mem_cons_of_mem group member)) restMade
    obtain ⟨first, others, isGroup, run⟩ := level.run_of (inside group List.mem_cons_self)
    have free := dot_notMem_labelOf group.1.key
    have call := correct group List.mem_cons_self heap
    rw [isGroup] at entryMade call
    dsimp only at entryMade call
    have label : labelOf group.1.key = labelOf (storedKey first).key := by rw [isGroup]
    rw [label] at run free
    rw [run.nextNames_eq level free] at call
    obtain ⟨grown, entry⟩ := entryValue_spec level free run call entryMade
    refine ⟨grown.trans bigger, ?_, ?_⟩
    · rw [labelNames, List.map_cons, ← labelNames, ← labels]
      rfl
    · intro name member
      rcases List.mem_cons.mp member with rfl | later
      · dsimp only
        rw [label]
        exact entry.mono (Rep.grow bigger depth)
      · exact entries name later

theorem labelNames_key {hashKey : List UInt8 → Nat} {groups : List (HashKey × List HashKey)}
    {curr : List HashKey} (same : blank curr = labelNames hashKey groups) :
    curr.map HashKey.key = groups.map fun group => labelOf group.1.key := by
  have keys := congrArg (List.map HashKey.key) same
  rw [blank, labelNames, List.map_map, List.map_map] at keys
  exact keys

theorem Entry.valued (level : Level rules) {rep : Nat → List (Rule Label) → Nat → Prop}
    {value : Nat} (entry : Entry rep rules h value)
    (used : ∃ rule ∈ rules, ∃ rest, rule.path = h :: rest) : 0 < value ∧ value < 2 ^ 64 := by
  rcases entry with ⟨leaf, isValue⟩ | ⟨_, addr, pointer, isValue, _⟩
  · obtain ⟨rule, member, path⟩ := used
    rcases path_cases path with ⟨alone, _⟩ | ⟨left, found⟩
    · cases single_rule : single h rules with
      | none => exact absurd alone (single_none single_rule rule member)
      | some other =>
        obtain ⟨positive, bound, aligned⟩ := level.valued other (single_some single_rule).1
        rw [isValue, single_rule, dataValue]
        split <;> omega
    · have inBelow : left ∈ below h rules := List.mem_filterMap.mpr ⟨rule, member, found⟩
      rw [leaf] at inBelow
      exact absurd inBelow List.not_mem_nil
  · have tag : tagOf (single h rules) < 4 := by
      cases single h rules with
      | none => decide
      | some rule =>
        rw [tagOf]
        split <;> decide
    obtain ⟨positive, bound, aligned⟩ := pointer
    omega

theorem mem_curr {hashKey : List UInt8 → Nat} {groups : List (HashKey × List HashKey)}
    {curr : List HashKey} (same : blank curr = labelNames hashKey groups) {name : HashKey}
    (member : name ∈ curr) :
    ∃ group ∈ groups, name.key = labelOf group.1.key ∧ name.null = false ∧
      name.keyHash = hashKey (labelOf group.1.key) := by
  have inBlank : { name with value := 0 } ∈ labelNames hashKey groups := by
    rw [← same]
    exact List.mem_map.mpr ⟨name, member, rfl⟩
  obtain ⟨group, inGroups, isName⟩ := List.mem_map.mp inBlank
  rw [HashKey.mk.injEq] at isName
  exact ⟨group, inGroups, isName.1.symm, isName.2.1.symm, isName.2.2.1.symm⟩

theorem curr_admissible {hashKey : List UInt8 → Nat} {curr : List HashKey}
    {rep : Nat → List (Rule Label) → Nat → Prop} (level : Level rules)
    (hashes : ∀ s, Lowered s → hashKey s = ngxHashKey s)
    (same : blank curr = labelNames hashKey (runs sameLabel (rules.map storedKey)))
    (entries : ∀ name ∈ curr, Entry rep rules name.key name.value) : Admissible curr := by
  have origin : ∀ name ∈ curr, Lowered name.key ∧ name.null = false ∧
      name.keyHash = hashKey name.key ∧ ∃ rule ∈ rules, ∃ rest, rule.path = name.key :: rest := by
    intro name member
    obtain ⟨group, inGroups, isKey, null, hash⟩ := mem_curr same member
    obtain ⟨first, others, isGroup, run⟩ := level.run_of inGroups
    refine ⟨?_, null, by rw [hash, isKey], first, run.member, ?_⟩
    · rw [isKey, isGroup]
      intro c inside
      exact lowered_ruleText (level.labels first run.member) c
        ((List.takeWhile_sublist _).subset inside)
    · rw [isKey]
      exact run.path
  exact
    { nonNull := fun name member => (origin name member).2.1
      lower := fun name member => (origin name member).1
      hashed := by
        intro name member
        obtain ⟨lowered, _, hash, _⟩ := origin name member
        rw [hash, hashes name.key lowered]
      valued := by
        intro name member
        exact (entries name member).valued level (origin name member).2.2.2
      distinct := by
        rw [labelNames_key same]
        exact (runs_spec level.clustered).1 }

theorem holds_of_correct {cacheline elts : Nat} {hashKey : List UInt8 → Nat}
    {curr : List HashKey} {table : HashTable} {rep : Nat → List (Rule Label) → Nat → Prop}
    (level : Level rules)
    (same : blank curr = labelNames hashKey (runs sameLabel (rules.map storedKey)))
    (entries : ∀ name ∈ curr, Entry rep rules name.key name.value)
    (correct : Correct cacheline elts curr table) : Holds rep table rules := by
  have keys := labelNames_key same
  have few : curr.length ≤ rules.length := by
    have count := congrArg List.length keys
    have groups := @runs_length _ sameLabel (rules.map storedKey)
    simp only [List.length_map] at count groups
    omega
  intro label fuel enough
  by_cases named : ∃ name ∈ curr, name.key = label
  · obtain ⟨name, member, rfl⟩ := named
    exact ⟨name.value, correct.hit name member fuel (by omega), entries name member⟩
  · have absent : ∀ rule ∈ rules, ¬∃ rest, rule.path = label :: rest := by
      intro rule member path
      obtain ⟨group, inGroups, isLabel⟩ :=
        exists_run level.clustered (List.mem_map_of_mem (f := storedKey) member)
      have known : label ∈ curr.map HashKey.key := by
        rw [keys]
        refine List.mem_map.mpr ⟨group, inGroups, ?_⟩
        rw [isLabel]
        exact (level.path_iff member).mpr path
      obtain ⟨name, inCurr, isKey⟩ := List.mem_map.mp known
      exact named ⟨name, inCurr, isKey⟩
    refine ⟨0, correct.miss label (fun name member isKey => named ⟨name, member, isKey⟩) fuel
      (by omega), Or.inl ⟨?_, ?_⟩⟩
    · rw [below, List.filterMap_eq_nil_iff]
      intro rule member
      cases found : rule.behind label with
      | none => rfl
      | some left => exact absurd ⟨_, (behind_some.mp found).1⟩ (absent rule member)
    · cases found : single label rules with
      | none => rfl
      | some rule =>
        obtain ⟨member, path⟩ := single_some found
        exact absurd ⟨[], path⟩ (absent rule member)

theorem wildcardInit_spec (pool : Pool) (hinit : HashInit) {hashKey : List UInt8 → Nat}
    (hashes : ∀ s, Lowered s → hashKey s = ngxHashKey s) (depth : Nat)
    (rules : List (Rule Label)) (level : Level rules)
    (roomy : ∀ names, LevelOf (rules.map storedKey) names →
      Roomy pool.cacheline hinit (labelNames hashKey (runs sameLabel names)))
    {addr : Nat}
    (built : wildcardInit pool hinit hashKey depth (rules.map storedKey) heap = some (addr, heap')) :
    Built heap heap' depth addr rules := by
  induction depth generalizing rules heap heap' addr with
  | zero => cases built
  | succ depth ih =>
    rw [wildcardInit, Option.bind_eq_some_iff] at built
    obtain ⟨⟨curr, mid⟩, listed, init⟩ := built
    dsimp only at init
    have calls : ∀ group ∈ runs sameLabel (rules.map storedKey), ∀ heap addr heap',
        wildcardInit pool hinit hashKey depth (nextNames group.1 group.2) heap =
            some (addr, heap') →
          Built heap heap' depth addr (below (labelOf group.1.key) rules) := by
      intro group member heap addr heap' called
      obtain ⟨first, others, isGroup, run⟩ := level.run_of member
      have next : nextNames group.1 group.2 =
          (below (labelOf group.1.key) rules).map storedKey := by
        have eq := run.nextNames_eq level (dot_notMem_labelOf group.1.key)
        rw [← eq, isGroup]
      rw [next] at called
      apply ih _ (level.below _) _ called
      intro names deeper
      apply roomy names
      rw [← next] at deeper
      exact (LevelOf.top.next member).trans deeper
    obtain ⟨bigger, same, entries⟩ := currNames_spec level _ (fun _ member => member) calls listed
    rw [initNew] at init
    split at init
    · rename_i table place tabled placed
      rw [Option.some.injEq, Prod.mk.injEq] at init
      obtain ⟨rfl, rfl⟩ := init
      have room : Roomy pool.cacheline hinit (blank curr) := by
        rw [same]
        exact roomy _ LevelOf.top
      have correct := ngxHashInit_roomy pool.word pool.line (pool.placed mid)
        (curr_admissible level hashes same entries) room tabled
      have new := pool.fresh mid place placed
      refine ⟨mid, table, bigger, new, pool.valid mid place placed, rfl, fun value => ?_⟩
      refine ⟨table, Function.update_self .., ?_⟩
      exact (holds_of_correct level same entries correct).mono
        (Rep.grow (Extends.update new _) depth)
    · cases init

end Init

end NgxFormal.Core.Hash
