import NgxFormal.Core.HashKeys

/-! From the keys that were added to what the lookups with a wildcard return. -/

namespace NgxFormal.Core.Hash

open Lib Lib.Runs Lib.LongestMatch

/-- `*.s` matches `x.s` and `.s` matches `s` too, `p.*` matches `p.x`, for a non-empty `x`; the
host name is its labels. -/
def WildcardKey.Matches (key : WildcardKey) (host : List Label) : Prop :=
  match key.form with
  | .star => ∃ x, x ≠ [] ∧ host = x ++ key.lower
  | .leading => ∃ x, host = x ++ key.lower
  | .trailing => ∃ x, x ≠ [] ∧ host = key.lower ++ x

/-- The value of the longest key that matches, or `NULL`. -/
def LongestValue (keys : List WildcardKey) (host : List Label) (value : Nat) : Prop :=
  (∃ key ∈ keys, key.Matches host ∧ key.value = value ∧
    ∀ other ∈ keys, other.Matches host → other.labels.length ≤ key.labels.length) ∨
  (value = 0 ∧ ∀ key ∈ keys, ¬key.Matches host)

/-- The array behind `ngx_qsort` with `ngx_http_cmp_dns_wildcards`. -/
structure SortedFrom (sorted stored : List HashKey) : Prop where
  same : sorted.Perm stored
  order : sorted.Pairwise fun a b => ngxDnsStrcmp a.key b.key ≤ 0

/-- The names for which the order of `ngx_dns_strcmp` and the 16-bit sums of `ngx_hash_init` do
no harm. -/
structure Buildable (cacheline : Nat) (hinit : HashInit) (hashKey : List UInt8 → Nat)
    (names : List HashKey) : Prop where
  separable : Separable (names.map HashKey.key)
  roomy : ∀ level, LevelOf names level →
    Roomy cacheline hinit (labelNames hashKey (runs sameLabel level))

section Texts

variable {p q : List Label}

theorem dotted_ends (l : Label) (rest : List Label) :
    ∃ e, dotted (l :: rest) = l ++ e ∧ Ends e ∧ (e = [] ↔ rest = []) ∧
      ∀ more, e = dot :: more → more = dotted rest := by
  cases rest with
  | nil => exact ⟨[], (List.append_nil l).symm, Or.inl rfl, by simp, by simp⟩
  | cons m rest =>
    exact ⟨dot :: dotted (m :: rest), rfl, Or.inr ⟨_, rfl⟩, by simp, by simp⟩

theorem dotted_injective (freeP : ∀ l ∈ p, dot ∉ l) (freeQ : ∀ l ∈ q, dot ∉ l) (usedP : p ≠ [])
    (usedQ : q ≠ []) (same : dotted p = dotted q) : p = q := by
  induction p generalizing q with
  | nil => exact absurd rfl usedP
  | cons l rest ih =>
    obtain ⟨m, rest', rfl⟩ := List.exists_cons_of_ne_nil usedQ
    obtain ⟨e, textP, endsP, lastP, moreP⟩ := dotted_ends l rest
    obtain ⟨e', textQ, endsQ, lastQ, moreQ⟩ := dotted_ends m rest'
    have labels : l = m := by
      rw [← labelOf_append (freeP l List.mem_cons_self) endsP, ← textP, same, textQ,
        labelOf_append (freeQ m List.mem_cons_self) endsQ]
    have tails : e = e' := by
      rw [textP, textQ, labels] at same
      exact List.append_cancel_left same
    rw [labels]
    congr 1
    by_cases last : rest = []
    · rw [last, eq_comm, ← lastQ, ← tails, lastP, last]
    · have last' : rest' ≠ [] := by
        rw [ne_eq, ← lastQ, ← tails, lastP]
        exact last
      rcases endsP with empty | ⟨more, shape⟩
      · exact absurd (lastP.mp empty) last
      · apply ih (fun k member => freeP k (List.mem_cons_of_mem l member))
          (fun k member => freeQ k (List.mem_cons_of_mem m member)) last last'
        rw [← moreP more shape, ← moreQ more (tails ▸ shape)]

theorem ruleText_injective {a b : Rule Label} (usedA : a.path ≠ []) (usedB : b.path ≠ [])
    (labelsA : ∀ l ∈ a.path, GoodLabel l) (labelsB : ∀ l ∈ b.path, GoodLabel l)
    (same : ruleText a = ruleText b) : a.path = b.path := by
  have whole : ∀ rule : Rule Label, rule.path ≠ [] → ruleText rule =
      dotted (if rule.ending then rule.path ++ [[]] else rule.path) := by
    intro rule used
    rw [ruleText]
    split
    · rw [dotted_snoc, if_neg used]
    · rfl
  have free : ∀ rule : Rule Label, (∀ l ∈ rule.path, GoodLabel l) →
      ∀ l ∈ (if rule.ending then rule.path ++ [[]] else rule.path), dot ∉ l := by
    intro rule labels l member
    split at member
    · rcases List.mem_append.mp member with inside | last
      · exact (labels l inside).free
      · rw [List.mem_singleton.mp last]
        exact List.not_mem_nil
    · exact (labels l member).free
  have nonempty : ∀ rule : Rule Label, rule.path ≠ [] →
      (if rule.ending then rule.path ++ [[]] else rule.path) ≠ [] := by
    intro rule used
    split
    · simp
    · exact used
  rw [whole a usedA, whole b usedB] at same
  have paths := dotted_injective (free a labelsA) (free b labelsB) (nonempty a usedA)
    (nonempty b usedB) same
  split at paths <;> split at paths
  · exact List.append_cancel_right paths
  · exact absurd rfl (labelsB [] (by rw [← paths]; simp)).nonempty
  · exact absurd rfl (labelsA [] (by rw [paths]; simp)).nonempty
  · exact paths

/-- A rearrangement of mapped elements is a map of rearranged elements. -/
theorem exists_perm_map {α β : Type} {f : α → β} {ys : List β} {xs : List α}
    (same : ys.Perm (xs.map f)) : ∃ zs : List α, zs.Perm xs ∧ ys = zs.map f := by
  induction ys generalizing xs with
  | nil =>
    have empty : xs = [] := by simpa using same
    exact ⟨[], by rw [empty], rfl⟩
  | cons y ys ih =>
    obtain ⟨x, member, rfl⟩ := List.mem_map.mp (same.subset List.mem_cons_self)
    obtain ⟨before, after, rfl⟩ := List.append_of_mem member
    have rest : ys.Perm ((before ++ after).map f) := by
      apply List.Perm.cons_inv (a := f x)
      apply same.trans
      rw [List.map_append, List.map_cons, List.map_append]
      exact List.perm_middle
    obtain ⟨zs, perm, rfl⟩ := ih rest
    exact ⟨x :: zs, (perm.cons x).trans List.perm_middle.symm, rfl⟩

end Texts

section Levels

variable {cacheline : Nat} {hinit : HashInit} {hashKey : List UInt8 → Nat}

theorem SortedFrom.level {sorted : List HashKey} {rules : List (Rule Label)}
    (from_rules : SortedFrom sorted (rules.map storedKey))
    (separable : Separable (sorted.map HashKey.key)) (used : ∀ rule ∈ rules, rule.path ≠ [])
    (labels : ∀ rule ∈ rules, ∀ l ∈ rule.path, GoodLabel l)
    (valued : ∀ rule ∈ rules, 0 < rule.value ∧ rule.value < 2 ^ 64 ∧ 4 ∣ rule.value)
    (distinct : (rules.map Rule.path).Nodup) :
    ∃ level, Level level ∧ level.Perm rules ∧ sorted = level.map storedKey := by
  obtain ⟨level, perm, rfl⟩ := exists_perm_map from_rules.same
  have texts : (level.map storedKey).map HashKey.key = level.map ruleText := by
    rw [List.map_map]
    rfl
  have inside : ∀ rule ∈ level, rule ∈ rules := fun rule member => perm.subset member
  have paths : (level.map Rule.path).Nodup := (perm.map Rule.path).nodup_iff.mpr distinct
  rw [texts] at separable
  refine ⟨level, ⟨?_, ?_, ?_, paths, ?_, separable.untorn⟩, perm, rfl⟩
  · exact fun rule member => used rule (inside rule member)
  · exact fun rule member => labels rule (inside rule member)
  · exact fun rule member => valued rule (inside rule member)
  · have order := List.pairwise_map.mp from_rules.order
    have apart : level.Pairwise fun a b => a.path ≠ b.path := List.pairwise_map.mp paths
    have members : level.Pairwise fun a b => a ∈ level ∧ b ∈ level :=
      List.pairwise_of_forall_mem_list fun a inA b inB => ⟨inA, inB⟩
    refine (order.and (apart.and members)).imp ?_
    rintro a b ⟨below, differ, inA, inB⟩
    rcases Int.lt_or_eq_of_le below with before | equal
    · exact before
    · have same := separable.distinct (ruleText a) (List.mem_map_of_mem inA) (ruleText b)
        (List.mem_map_of_mem inB) equal
      exact absurd (ruleText_injective (used a (inside a inA)) (used b (inside b inB))
        (labels a (inside a inA)) (labels b (inside b inB)) same) differ

theorem WildcardKey.matches_head {key : WildcardKey} (isHead : key.form ≠ .trailing)
    (host : List Label) :
    key.Matches host ↔ key.headRule.Matches headExact host.reverse := by
  have suffix : key.lower.reverse <+: host.reverse ↔ ∃ x, host = x ++ key.lower := by
    rw [List.reverse_prefix]
    exact ⟨fun ⟨x, same⟩ => ⟨x, same.symm⟩, fun ⟨x, same⟩ => ⟨x, same.symm⟩⟩
  rw [Rule.Matches, WildcardKey.headRule, suffix, List.reverse_inj, WildcardKey.Matches]
  cases form : key.form with
  | star =>
    simp only [headExact, beq_self_eq_true, Bool.not_true, Bool.false_eq_true, imp_false]
    constructor
    · rintro ⟨x, some_x, rfl⟩
      refine ⟨⟨x, rfl⟩, fun same => some_x ?_⟩
      have length := congrArg List.length same
      rw [List.length_append] at length
      exact List.length_eq_zero_iff.mp (by omega)
    · rintro ⟨⟨x, rfl⟩, differ⟩
      exact ⟨x, fun empty => differ (by rw [empty]; rfl), rfl⟩
  | leading =>
    have ends : headExact (WildcardForm.leading == WildcardForm.star) = true := rfl
    simp only [ends, implies_true, and_true]
  | trailing => exact absurd form isHead

theorem WildcardKey.matches_tail {key : WildcardKey} (isTail : key.form = .trailing)
    (host : List Label) : key.Matches host ↔ key.tailRule.Matches tailExact host := by
  rw [Rule.Matches, WildcardKey.tailRule, WildcardKey.Matches, isTail]
  simp only [tailExact, Bool.false_eq_true, imp_false]
  constructor
  · rintro ⟨x, some_x, rfl⟩
    refine ⟨⟨x, rfl⟩, fun same => some_x ?_⟩
    have length := congrArg List.length same
    rw [List.length_append] at length
    exact List.length_eq_zero_iff.mp (by omega)
  · rintro ⟨⟨x, rfl⟩, differ⟩
    exact ⟨x, fun empty => differ (by rw [empty, List.append_nil]), rfl⟩

/-- The longest rule is the longest key. -/
theorem longest_of_rules {keys : List WildcardKey} {rules : List (Rule Label)}
    {exact : Bool → Bool} {rule : WildcardKey → Rule Label} {host query : List Label} {value : Nat}
    (from_keys : rules.Perm (keys.map rule))
    (agree : ∀ key ∈ keys, (key.Matches host ↔ (rule key).Matches exact query) ∧
      (rule key).value = key.value ∧ (rule key).path.length = key.labels.length)
    (longest : Longest exact rules query value) : LongestValue keys host value := by
  have inRules : ∀ key ∈ keys, rule key ∈ rules := fun key member =>
    from_keys.symm.subset (List.mem_map_of_mem member)
  rcases longest with ⟨best, member, found, isValue, top⟩ | ⟨zero, nothing⟩
  · obtain ⟨key, inKeys, rfl⟩ := List.mem_map.mp (from_keys.subset member)
    obtain ⟨same, sameValue, sameLength⟩ := agree key inKeys
    refine Or.inl ⟨key, inKeys, same.mpr found, by rw [← sameValue, isValue], ?_⟩
    intro other inOther otherFound
    obtain ⟨sameOther, _, otherLength⟩ := agree other inOther
    rw [← otherLength, ← sameLength]
    exact top (rule other) (inRules other inOther) (sameOther.mp otherFound)
  · refine Or.inr ⟨zero, fun key inKeys found => ?_⟩
    exact nothing (rule key) (inRules key inKeys) ((agree key inKeys).1.mp found)

end Levels

section Main

variable {pool : Pool} {hinit : HashInit} {hashKey : List UInt8 → Nat}

theorem hashKey_lowered (isKey : hashKey = ngxHashKey ∨ hashKey = ngxHashKeyLc) (s : List UInt8)
    (lowered : Lowered s) : hashKey s = ngxHashKey s := by
  rcases isKey with rfl | rfl
  · rfl
  · rw [ngxHashKeyLc, ngxHashKey, ← List.foldl_map, List.map_congr_left lowered, List.map_id']

theorem ngxHashWildcardInit_spec (isKey : hashKey = ngxHashKey ∨ hashKey = ngxHashKeyLc)
    {rules : List (Rule Label)} {heap heap' : Wildcards} {hwc : Nat} (level : Level rules)
    (roomy : ∀ names, LevelOf (rules.map storedKey) names →
      Roomy pool.cacheline hinit (labelNames hashKey (runs sameLabel names)))
    (built : ngxHashWildcardInit pool hinit hashKey (rules.map storedKey) heap = some (hwc, heap')) :
    Extends heap heap' ∧ ∃ depth, Rep heap' depth hwc rules 0 := by
  obtain ⟨mid, table, bigger, new, _, rfl, rep⟩ :=
    wildcardInit_spec pool hinit (hashKey_lowered isKey) _ rules level roomy built
  exact ⟨bigger.trans (Extends.update new _), _, rep 0⟩

theorem Finds.top {result : Option Nat} {walked : Nat} (finds : Finds result walked 0) :
    result = some walked := by
  obtain ⟨found, rfl, agree⟩ := finds
  have plain : ∀ n, orElse n 0 = n := by
    intro n
    rw [orElse]
    split
    · exact Eq.symm ‹n = 0›
    · rfl
  rw [plain, plain] at agree
  rw [agree]

theorem level_of_keys {keys : List WildcardKey} {rule : WildcardKey → Rule Label}
    {sorted stored : List HashKey} (wellFormed : ∀ key ∈ keys, key.WellFormed)
    (isStored : stored = keys.map fun key => storedKey (rule key))
    (path : ∀ key, (rule key).path = key.lower ∨ (rule key).path = key.lower.reverse)
    (value : ∀ key, (rule key).value = key.value)
    (distinct : (keys.map fun key => (rule key).path).Nodup) (order : SortedFrom sorted stored)
    (separable : Separable (sorted.map HashKey.key)) :
    ∃ rules, Level rules ∧ rules.Perm (keys.map rule) ∧ sorted = rules.map storedKey := by
  have labels : ∀ key l, l ∈ (rule key).path ↔ l ∈ key.lower := by
    intro key l
    rcases path key with same | same <;> simp [same]
  have mapped : stored = (keys.map rule).map storedKey := by
    rw [isStored, List.map_map]
    rfl
  rw [mapped] at order
  apply order.level separable
  · intro rule' member
    obtain ⟨key, inKeys, rfl⟩ := List.mem_map.mp member
    have used := (wellFormed key inKeys).lower_used
    rcases path key with same | same
    · rwa [same]
    · simpa [same] using used
  · intro rule' member l inPath
    obtain ⟨key, inKeys, rfl⟩ := List.mem_map.mp member
    exact (wellFormed key inKeys).good l ((labels key l).mp inPath)
  · intro rule' member
    obtain ⟨key, inKeys, rfl⟩ := List.mem_map.mp member
    rw [value]
    exact (wellFormed key inKeys).value
  · rw [List.map_map]
    exact distinct

theorem Level.walk_longest {rules : List (Rule Label)} (level : Level rules)
    (exact : Bool → Bool) (query : List Label) :
    Longest exact rules query (walk exact rules query) := by
  apply LongestMatch.walk_longest rules query level.used _ level.distinct
  intro rule member zero
  have := (level.valued rule member).1
  omega

/-- On names that the order of `ngx_dns_strcmp` keeps together and that leave every bucket below
`2^16` bytes, the lookups return the value of the longest matching wildcard. -/
theorem wildcard_lookup_correct (area : KeysArrays → Nat → UInt8) (small readonly : Bool)
    (pool : Pool) (hinit : HashInit) (hashKey : List UInt8 → Nat)
    (isKey : hashKey = ngxHashKey ∨ hashKey = ngxHashKeyLc) (keys : List WildcardKey)
    (wellFormed : ∀ key ∈ keys, key.WellFormed) (ha : KeysArrays)
    (added : addKeys area readonly (ngxHashKeysArrayInit small) keys = some ha)
    (headNames tailNames : List HashKey) (headSorted : SortedFrom headNames ha.dnsWcHead)
    (tailSorted : SortedFrom tailNames ha.dnsWcTail) (heap headHeap tailHeap : Wildcards)
    (wcHead wcTail : Nat)
    (headBuilt : ngxHashWildcardInit pool hinit hashKey headNames heap = some (wcHead, headHeap))
    (tailBuilt : ngxHashWildcardInit pool hinit hashKey tailNames headHeap =
      some (wcTail, tailHeap))
    (headFits : Buildable pool.cacheline hinit hashKey headNames)
    (tailFits : Buildable pool.cacheline hinit hashKey tailNames)
    (noNul : ∀ key ∈ keys, key.form = .trailing → ∀ l ∈ key.labels, 0 ∉ l)
    (host : List Label) (some_host : host ≠ []) (hostLabels : ∀ l ∈ host, l ≠ [] ∧ dot ∉ l)
    (fuel : Nat) (enough : keys.length < fuel) :
    (∃ value, ngxHashFindWcHead tailHeap fuel wcHead (dotted host) = some value ∧
      LongestValue (heads keys) host value) ∧
    (∃ value, ngxHashFindWcTail tailHeap fuel wcTail (dotted host) = some value ∧
      LongestValue (tails keys) host value) := by
  have keeps := (keeps_init small).addKeys keys wellFormed noNul added
  rw [List.nil_append] at keeps
  have headKeys : ∀ key ∈ heads keys, key ∈ keys := fun key member =>
    List.mem_of_mem_filter member
  have tailKeys : ∀ key ∈ tails keys, key ∈ keys := fun key member =>
    List.mem_of_mem_filter member
  have few : ∀ {part : List WildcardKey} {rule : WildcardKey → Rule Label}
      {rules : List (Rule Label)}, List.Sublist part keys → rules.Perm (part.map rule) →
        rules.length < fuel := by
    intro part rule rules fewer same
    have length := same.length_eq
    rw [List.length_map] at length
    have := fewer.length_le
    omega
  have freeHost : ∀ l ∈ host, dot ∉ l := fun l member => (hostLabels l member).2
  -- the two trees, the second built in a heap that holds the first
  obtain ⟨headRules, headLevel, headPerm, rfl⟩ := level_of_keys
    (fun key member => wellFormed key (headKeys key member)) keeps.head
    (fun key => Or.inr rfl) (fun key => rfl)
    (by
      have reversed := keeps.headDistinct.map List.reverse_injective
      rwa [List.map_map] at reversed)
    headSorted headFits.separable
  obtain ⟨tailRules, tailLevel, tailPerm, rfl⟩ := level_of_keys
    (fun key member => wellFormed key (tailKeys key member)) keeps.tail
    (fun key => Or.inl rfl) (fun key => rfl) keeps.tailDistinct tailSorted tailFits.separable
  obtain ⟨_, headDepth, headRep⟩ :=
    ngxHashWildcardInit_spec isKey headLevel headFits.roomy headBuilt
  obtain ⟨grown, tailDepth, tailRep⟩ :=
    ngxHashWildcardInit_spec isKey tailLevel tailFits.roomy tailBuilt
  have headRep := Rep.grow grown headDepth wcHead headRules 0 headRep
  constructor
  · have finds := @findHead_spec tailHeap fuel host.reverse headRules headDepth
      ((dotted host).length + 1) wcHead 0 headLevel headRep (by simpa using some_host)
      (fun l member => freeHost l (List.mem_reverse.mp member)) (few List.filter_sublist headPerm)
      (by rw [List.reverse_reverse]; exact Nat.lt_succ_self _)
    rw [List.reverse_reverse] at finds
    refine ⟨_, finds.top, longest_of_rules headPerm ?_ (headLevel.walk_longest _ _)⟩
    intro key member
    have isHead : key.form ≠ .trailing := by simpa using List.of_mem_filter member
    refine ⟨WildcardKey.matches_head isHead host, rfl, ?_⟩
    simp [WildcardKey.headRule, WildcardKey.lower]
  · have plain : ∀ rule ∈ tailRules, rule.ending = false := by
      intro rule member
      obtain ⟨key, _, rfl⟩ := List.mem_map.mp (tailPerm.subset member)
      rfl
    have finds := @findTail_spec tailHeap fuel host tailRules tailDepth
      ((dotted host).length + 1) wcTail 0 tailLevel plain tailRep some_host freeHost
      (few List.filter_sublist tailPerm) (Nat.lt_succ_self _)
    refine ⟨_, finds.top, longest_of_rules tailPerm ?_ (tailLevel.walk_longest _ _)⟩
    intro key member
    have isTail : key.form = .trailing := by simpa using List.of_mem_filter member
    refine ⟨WildcardKey.matches_tail isTail host, rfl, ?_⟩
    simp [WildcardKey.tailRule, WildcardKey.lower]

end Main

section Small

/-- More bytes than all the elements of the names can take. -/
def bulk (names : List HashKey) : Nat := (names.map fun name => name.key.length + 18).sum

theorem bulk_cons (name : HashKey) (rest : List HashKey) :
    bulk (name :: rest) = name.key.length + 18 + bulk rest := by
  rw [bulk, List.map_cons, List.sum_cons, ← bulk]

theorem bulk_append (first second : List HashKey) :
    bulk (first ++ second) = bulk first + bulk second := by
  rw [bulk, List.map_append, List.sum_append, ← bulk, ← bulk]

theorem trueSum_le_bulk (size : Nat) (names : List HashKey) (k : Nat) :
    trueSum size names k ≤ bulk names := by
  induction names with
  | nil => exact Nat.le_refl 0
  | cons name rest ih =>
    have bounds := eltSize_bounds name
    rw [trueSum_cons, bulk_cons]
    split <;> omega

theorem bulk_nextNames (first : HashKey) (run : List HashKey) :
    bulk (nextNames first run) ≤ bulk (first :: run) := by
  have rest : bulk (run.map fun name => (⟨name.key.drop ((labelOf first.key).length + 1), false, 0,
      name.value⟩ : HashKey)) ≤ bulk run := by
    induction run with
    | nil => exact Nat.le_refl 0
    | cons name run ih =>
      rw [List.map_cons, bulk_cons, bulk_cons, List.length_drop]
      omega
  rw [nextNames, bulk_append, bulk_cons]
  have head : bulk (if first.key.length ≠ labelLen first.key then
      [(⟨first.key.drop (labelLen first.key), false, 0, first.value⟩ : HashKey)] else []) ≤
        first.key.length + 18 := by
    split
    · rw [bulk_cons, List.length_drop, bulk]
      simp
    · exact Nat.zero_le _
  omega

theorem bulk_group {names : List HashKey} {group : HashKey × List HashKey}
    (member : group ∈ runs sameLabel names) : bulk (group.1 :: group.2) ≤ bulk names := by
  obtain ⟨before, after, split⟩ := List.append_of_mem member
  have whole := @runs_flatten _ sameLabel names
  rw [split, List.flatMap_append, List.flatMap_cons] at whole
  rw [← whole, bulk_append, bulk_append]
  omega

theorem bulk_labelNames (hashKey : List UInt8 → Nat) (groups : List (HashKey × List HashKey)) :
    bulk (labelNames hashKey groups) ≤ bulk (groups.flatMap fun group => group.1 :: group.2) := by
  induction groups with
  | nil => exact Nat.le_refl 0
  | cons group groups ih =>
    have label : (labelOf group.1.key).length ≤ group.1.key.length :=
      (List.takeWhile_sublist _).length_le
    rw [labelNames, List.map_cons, ← labelNames, bulk_cons, List.flatMap_cons, bulk_append,
      bulk_cons]
    dsimp only
    omega

/-- Names of fewer than `2^16` bytes in all, with the overhead of their elements, never fill a
bucket. -/
theorem roomy_of_bulk {cacheline : Nat} {hinit : HashInit} {hashKey : List UInt8 → Nat}
    {names : List HashKey} (few : bulk names + 8 + cacheline ≤ 65536) (level : List HashKey)
    (isLevel : LevelOf names level) :
    Roomy cacheline hinit (labelNames hashKey (runs sameLabel level)) := by
  have smaller : bulk level ≤ bulk names := by
    induction isLevel with
    | top => exact Nat.le_refl _
    | next _ member ih =>
      exact Nat.le_trans (bulk_nextNames _ _) (Nat.le_trans (bulk_group member) ih)
  intro size _ k
  have sum := trueSum_le_bulk size (labelNames hashKey (runs sameLabel level)) k
  have labels := bulk_labelNames hashKey (runs sameLabel level)
  rw [runs_flatten] at labels
  omega

theorem untorn_of_printable {keys : List (List UInt8)}
    (printable : ∀ key ∈ keys, ∀ c ∈ key, chr ' ' ≤ c) : Untorn keys :=
  fun w _ y t _ _ third => printable (w ++ y :: t) third y (by simp)

end Small

section Examples

def places : List Nat := (List.range 64).map fun i => 4096 + 64 * i

/-- A pool with room for 64 wildcard hashes. -/
def smallPool : Pool where
  cacheline := 64
  wildcard heap := places.find? fun addr => (heap addr).isNone
  elts _ := 8192
  memory _ _ := 0
  word := by decide
  line := by decide
  placed _ := by decide
  fresh := by
    intro heap addr found
    simpa using List.find?_some found
  valid := by
    intro heap addr found
    exact (by decide : ∀ addr ∈ places, 0 < addr ∧ addr < 2 ^ 64 ∧ 8 ∣ addr) addr
      (List.mem_of_find?_eq_some found)

/-- `*.b.a`, `.a` and `w.*`. -/
def threeKeys : List WildcardKey :=
  [⟨.star, [[chr 'b'], [chr 'a']], 4⟩, ⟨.leading, [[chr 'a']], 8⟩, ⟨.trailing, [[chr 'w']], 12⟩]

def threeHeads : List HashKey :=
  [⟨[chr 'a'], false, 0, 8⟩, ⟨[chr 'a', dot, chr 'b', dot], false, 0, 4⟩]

def threeTails : List HashKey := [⟨[chr 'w'], false, 0, 12⟩]

/-- The host name `x.b.a`. -/
theorem wildcard_lookup_correct_three :
    ∃ heap wcHead wcTail,
      (∃ value, ngxHashFindWcHead heap 4 wcHead (dotted [[chr 'x'], [chr 'b'], [chr 'a']]) =
        some value ∧ LongestValue (heads threeKeys) [[chr 'x'], [chr 'b'], [chr 'a']] value) ∧
      (∃ value, ngxHashFindWcTail heap 4 wcTail (dotted [[chr 'x'], [chr 'b'], [chr 'a']]) =
        some value ∧ LongestValue (tails threeKeys) [[chr 'x'], [chr 'b'], [chr 'a']] value) := by
  have stored : (addKeys (fun _ _ => 0) false (ngxHashKeysArrayInit true) threeKeys).map
      (fun ha => (ha.dnsWcHead, ha.dnsWcTail)) = some (threeHeads.reverse, threeTails) := by
    decide +kernel
  obtain ⟨ha, added, arrays⟩ := Option.map_eq_some_iff.mp stored
  rw [Prod.mk.injEq] at arrays
  obtain ⟨⟨wcHead, headHeap⟩, headBuilt⟩ := Option.isSome_iff_exists.mp
    (by decide +kernel : (ngxHashWildcardInit smallPool ⟨512, 64⟩ ngxHashKeyLc threeHeads
      fun _ => none).isSome)
  have second : ((ngxHashWildcardInit smallPool ⟨512, 64⟩ ngxHashKeyLc threeHeads
      fun _ => none).bind fun built => ngxHashWildcardInit smallPool ⟨512, 64⟩ ngxHashKeyLc
        threeTails built.2).isSome := by decide +kernel
  rw [headBuilt, Option.bind_some] at second
  obtain ⟨⟨wcTail, tailHeap⟩, tailBuilt⟩ := Option.isSome_iff_exists.mp second
  refine ⟨tailHeap, wcHead, wcTail, wildcard_lookup_correct (fun _ _ => 0) true false smallPool
    ⟨512, 64⟩ ngxHashKeyLc (Or.inr rfl) threeKeys ?_ ha added threeHeads threeTails ?_ ?_ _ _ _ _ _
    headBuilt tailBuilt ⟨⟨?_, ?_⟩, ?_⟩ ⟨⟨?_, ?_⟩, ?_⟩ ?_ _ (by decide) ?_ 4 (by decide)⟩
  · have formed : ∀ key ∈ threeKeys, key.labels ≠ [] ∧
        (∀ l ∈ key.labels, l ≠ [] ∧ dot ∉ l ∧ chr '*' ∉ l) ∧
        0 < key.value ∧ key.value < 2 ^ 64 ∧ 4 ∣ key.value := by decide +kernel
    intro key member
    exact ⟨(formed key member).1, (formed key member).2.1, (formed key member).2.2⟩
  · rw [arrays.1]
    exact ⟨(List.reverse_perm _).symm, by decide +kernel⟩
  · rw [arrays.2]
    exact ⟨List.Perm.refl _, by decide +kernel⟩
  · decide +kernel
  · exact untorn_of_printable (by decide +kernel)
  · exact roomy_of_bulk (by decide +kernel)
  · decide +kernel
  · exact untorn_of_printable (by decide +kernel)
  · exact roomy_of_bulk (by decide +kernel)
  · decide +kernel
  · decide +kernel

/-- `.a`, `.b.a` and a label of `a` and the byte 1, which sorts between the first two. -/
def tornKeys : List WildcardKey :=
  [⟨.leading, [[chr 'a']], 4⟩, ⟨.leading, [[chr 'b'], [chr 'a']], 8⟩,
    ⟨.leading, [[chr 'a', 1]], 12⟩]

def tornHeads : List HashKey :=
  [⟨[chr 'a'], false, 0, 4⟩, ⟨[chr 'a', 1], false, 0, 12⟩,
    ⟨[chr 'a', dot, chr 'b'], false, 0, 8⟩]

/-- The lookup of `b.a` finds `.a`. -/
theorem wildcard_lookup_torn :
    ∃ ha hwc heap value, addKeys (fun _ _ => 0) false (ngxHashKeysArrayInit true) tornKeys = some ha ∧
      SortedFrom tornHeads ha.dnsWcHead ∧
      ngxHashWildcardInit smallPool ⟨512, 64⟩ ngxHashKeyLc tornHeads (fun _ => none) =
        some (hwc, heap) ∧
      ngxHashFindWcHead heap 4 hwc (dotted [[chr 'b'], [chr 'a']]) = some value ∧
      ¬LongestValue (heads tornKeys) [[chr 'b'], [chr 'a']] value := by
  have stored : (addKeys (fun _ _ => 0) false (ngxHashKeysArrayInit true) tornKeys).map
      (fun ha => ha.dnsWcHead) = some [tornHeads[0], tornHeads[2], tornHeads[1]] := by
    decide +kernel
  obtain ⟨ha, added, array⟩ := Option.map_eq_some_iff.mp stored
  have found : ((ngxHashWildcardInit smallPool ⟨512, 64⟩ ngxHashKeyLc tornHeads
      fun _ => none).bind fun built => ngxHashFindWcHead built.2 4 built.1
        (dotted [[chr 'b'], [chr 'a']])) = some 4 := by decide +kernel
  obtain ⟨⟨hwc, heap⟩, built, result⟩ := Option.bind_eq_some_iff.mp found
  refine ⟨ha, hwc, heap, 4, added, ⟨?_, by decide +kernel⟩, built, result, ?_⟩
  · rw [array]
    exact List.Perm.cons _ (List.Perm.swap _ _ _)
  · rintro (⟨key, member, _, isValue, longest⟩ | ⟨zero, _⟩)
    · have matched : (⟨.leading, [[chr 'b'], [chr 'a']], 8⟩ : WildcardKey).Matches
          [[chr 'b'], [chr 'a']] := ⟨[], by decide⟩
      have bound := longest _ (by decide) matched
      have short : ∀ key ∈ heads tornKeys, key.value = 4 → key.labels.length = 1 := by decide
      rw [short key member isValue] at bound
      exact absurd bound (by decide)
    · cases zero

end Examples

end NgxFormal.Core.Hash
