import NgxFormal.Http.RoundRobinTries

/-! The words of the `tried` bitmap that a request reads and writes, and those that it was given. -/

namespace NgxFormal.Http.RoundRobin

/-- The words that `ngx_http_upstream_init_round_robin_peer` provides: `rrp->data`, or the array
from `ngx_pcalloc`. -/
def triedWords (up : Upstream) : Nat :=
  let n := up.primary.length
  let n := if (up.backup.getD []).length > n then (up.backup.getD []).length else n
  if n ≤ 64 then 1 else (n + 63) / 64

/-- The words that `firstLoop` tests. A mark is set in the word that was tested last. -/
def firstLoopWords (now : Int) : Nat → Search → List Nat
  | 0, _ => []
  | i + 1, s =>
    match ngxHttpUpstreamGetPeer s.peers with
    | none => []
    | some (n, peers) =>
      let (taken, s) := tryCurrent now { s with current := n, peers := peers }
      n / 64 :: (if taken then [] else if s.tries = 0 then [] else firstLoopWords now i s)

/-- The words that `nextLoop` tests. -/
def nextLoopWords (now : Int) : Nat → Search → List Nat
  | 0, _ => []
  | i + 1, s =>
    let word := s.current / 64
    let (taken, s) := tryCurrent now s
    let current := if s.current + 1 ≥ s.peers.length then 0 else s.current + 1
    let s := { s with current := current }
    word :: (if taken then [] else if s.tries = 0 then [] else nextLoopWords now i s)

/-- Without a peer the counters of the loop wrap, and it turns on the first word. -/
def searchWords (now : Int) (s : Search) : List Nat :=
  if s.peers = [] then [0]
  else if s.tries = s.peers.length then firstLoopWords now s.tries s
  else nextLoopWords now s.tries s

/-- The words that `clearTried` writes. -/
def clearWords (number : Nat) : List Nat := List.range (number / 64 + 1)

/-- The words of `ngx_http_upstream_get_round_robin_peer`. -/
def getWords (now : Int) (up : Upstream) : List Nat :=
  match up.onBackup, up.backup with
  | true, some backup => searchWords now ⟨backup, up.current, up.tried, up.tries⟩
  | _, _ =>
    if up.single then []
    else if up.primary = [] then [0]
    else
      let s : Search := ⟨up.primary, up.current, up.tried, up.tries⟩
      searchWords now s ++
        match search now s, up.backup with
        | some (true, s), some backup => if s.tries = 1 then clearWords backup.length else []
        | some (false, s), some backup =>
          clearWords backup.length ++
            searchWords now
              ⟨backup, s.current, clearTried s.tried backup.length, backup.length⟩
        | _, _ => []

/-- The words of a request; it asks for a peer once at least. -/
def requestWords : List Attempt → Upstream → List Nat
  | [], _ => []
  | attempt :: later, up =>
    getWords attempt.now (change attempt up) ++
      match tryPeer attempt up with
      | none => []
      | some (up, _) => if up.tries = 0 then [] else requestWords later up

/-- What `ngx_http_upstream_init_round_robin` makes of the peers. -/
def configured (primary : List Peer) (backup : Option (List Peer)) : Upstream :=
  { single := decide (primary.length = 1) && backup.isNone
    primary := primary
    backup := backup
    onBackup := false
    current := 0
    tried := fun _ => 0
    tries := 0 }

/-- The backup peers do not fill their last word, or there are more primary peers. -/
def ClearFits (primary : List Peer) (backup : Option (List Peer)) : Prop :=
  primary = [] ∨ ∀ peers, backup = some peers →
    peers = [] ∨ peers.length % 64 ≠ 0 ∨ peers.length < primary.length

section Indices

variable {now : Int} {s next : Search} {taken : Bool} {words : Nat}

theorem compareNext_lt {n m i : Nat} {mine : Peer} {rest : List Peer}
    (found : compareNext n mine i rest = some m) (before : n < i) : m < i + rest.length := by
  induction rest generalizing n i mine with
  | nil =>
    obtain rfl : n = m := Option.some.inj found
    exact before
  | cons peer rest ih =>
    rw [compareNext] at found
    have length : i + (peer :: rest).length = i + 1 + rest.length := by
      rw [List.length_cons]
      omega
    rw [length]
    split at found
    · exact ih found (by omega)
    · split at found
      · cases found
      · split at found
        · obtain rfl : n = m := Option.some.inj found
          omega
        · exact ih found (Nat.lt_succ_self i)

theorem findPeer_lt {m i : Nat} {peers : List Peer} (found : findPeer i peers = some (some m)) :
    m < i + peers.length := by
  induction peers generalizing i with
  | nil => cases found
  | cons peer rest ih =>
    rw [findPeer] at found
    have length : i + (peer :: rest).length = i + 1 + rest.length := by
      rw [List.length_cons]
      omega
    rw [length]
    split at found
    · exact ih found
    · obtain ⟨n, compared, isM⟩ := Option.map_eq_some_iff.mp found
      obtain rfl : n = m := Option.some.inj isM
      exact compareNext_lt compared (Nat.lt_succ_self i)

theorem ngxHttpUpstreamGetPeer_lt {n : Nat} {peers peers' : List Peer}
    (found : ngxHttpUpstreamGetPeer peers = some (n, peers')) :
    (n = 0 ∨ n < peers.length) ∧ peers'.length = peers.length := by
  unfold ngxHttpUpstreamGetPeer at found
  obtain ⟨first, isFirst, found⟩ := Option.bind_eq_some_iff.mp found
  cases first with
  | some m =>
    obtain ⟨rfl, rfl⟩ := Prod.mk.inj (Option.some.inj found)
    exact ⟨Or.inr (by simpa using findPeer_lt isFirst), rfl⟩
  | none =>
    obtain ⟨second, isSecond, found⟩ := Option.map_eq_some_iff.mp found
    obtain ⟨rfl, rfl⟩ := Prod.mk.inj found
    have length : (resetWeights peers).length = peers.length := List.length_map _
    refine ⟨?_, length⟩
    cases second with
    | none => exact Or.inl rfl
    | some m =>
      have below := findPeer_lt isSecond
      rw [length, Nat.zero_add] at below
      exact Or.inr below

theorem tryCurrent_same (now : Int) (s : Search) :
    (tryCurrent now s).2.current = s.current ∧
      (tryCurrent now s).2.peers.length = s.peers.length := by
  unfold tryCurrent
  split
  · exact ⟨rfl, rfl⟩
  · dsimp only
    split
    · split
      · exact ⟨rfl, rfl⟩
      · split
        · exact ⟨rfl, List.length_set⟩
        · exact ⟨rfl, List.length_set⟩
    · exact ⟨rfl, rfl⟩

/-- The current peer and all peers have their bits in the words. -/
structure Within (words : Nat) (s : Search) : Prop where
  some_word : 0 < words
  current : s.current < 64 * words
  peers : s.peers.length ≤ 64 * words

theorem Within.word (within : Within words s) : s.current / 64 < words := by
  have bound := within.current
  omega

theorem Within.tryCurrent (within : Within words s) (now : Int) :
    Within words (RoundRobin.tryCurrent now s).2 := by
  obtain ⟨current, peers⟩ := tryCurrent_same now s
  exact ⟨within.some_word, by rw [current]; exact within.current, by rw [peers]; exact within.peers⟩

theorem Within.select (within : Within words s) {n : Nat} {peers : List Peer}
    (found : ngxHttpUpstreamGetPeer s.peers = some (n, peers)) :
    Within words { s with current := n, peers := peers } := by
  obtain ⟨selected, length⟩ := ngxHttpUpstreamGetPeer_lt found
  have some_word := within.some_word
  have bound := within.peers
  refine ⟨some_word, ?_, by rw [length]; exact bound⟩
  show n < 64 * words
  omega

theorem Within.advance (within : Within words s) :
    Within words { s with
      current := if s.current + 1 ≥ s.peers.length then 0 else s.current + 1 } := by
  have some_word := within.some_word
  have bound := within.peers
  refine ⟨some_word, ?_, bound⟩
  show (if s.current + 1 ≥ s.peers.length then 0 else s.current + 1) < 64 * words
  split
  · omega
  · omega

theorem Within.firstLoop (i : Nat) (within : Within words s) :
    (∀ word ∈ firstLoopWords now i s, word < words) ∧
      ∀ taken next, RoundRobin.firstLoop now i s = some (taken, next) →
        Within words next ∧ next.peers.length = s.peers.length := by
  induction i generalizing s with
  | zero =>
    refine ⟨fun word member => (List.not_mem_nil member).elim, fun taken next done => ?_⟩
    obtain ⟨_, rfl⟩ := Prod.mk.inj (Option.some.inj done)
    exact ⟨within, rfl⟩
  | succ i ih =>
    rw [firstLoopWords, RoundRobin.firstLoop]
    cases found : ngxHttpUpstreamGetPeer s.peers with
    | none =>
      refine ⟨fun word member => (List.not_mem_nil member).elim, fun taken next done => ?_⟩
      cases done
    | some selected =>
      obtain ⟨n, peers⟩ := selected
      have here := within.select found
      have length := (ngxHttpUpstreamGetPeer_lt found).2
      have tested := here.tryCurrent now
      have same := (tryCurrent_same now { s with current := n, peers := peers }).2
      have first : n / 64 < words := here.word
      dsimp only [Option.bind]
      generalize RoundRobin.tryCurrent now { s with current := n, peers := peers } = result at *
      obtain ⟨taken, mid⟩ := result
      have lengthMid : mid.peers.length = s.peers.length := same.trans length
      obtain ⟨wordsLater, doneLater⟩ := ih tested
      constructor
      · intro word member
        rcases List.mem_cons.mp member with rfl | later
        · exact first
        · split at later
          · cases later
          · split at later
            · cases later
            · exact wordsLater word later
      · intro taken' next done
        have stops : ∀ flag, some (flag, mid) = some (taken', next) →
            Within words next ∧ next.peers.length = s.peers.length := by
          intro flag equal
          obtain ⟨_, rfl⟩ := Prod.mk.inj (Option.some.inj equal)
          exact ⟨tested, lengthMid⟩
        split at done
        · exact stops _ done
        · split at done
          · exact stops _ done
          · split at done
            · exact stops _ done
            · obtain ⟨within', length'⟩ := doneLater taken' next done
              exact ⟨within', length'.trans lengthMid⟩

theorem Within.nextLoop (i : Nat) (within : Within words s) :
    (∀ word ∈ nextLoopWords now i s, word < words) ∧
      Within words (RoundRobin.nextLoop now i s).2 ∧
      (RoundRobin.nextLoop now i s).2.peers.length = s.peers.length := by
  induction i generalizing s with
  | zero => exact ⟨fun word member => (List.not_mem_nil member).elim, within, rfl⟩
  | succ i ih =>
    rw [nextLoopWords, RoundRobin.nextLoop]
    have tested := within.tryCurrent now
    have same := (tryCurrent_same now s).2
    have first := within.word
    dsimp only
    generalize RoundRobin.tryCurrent now s = result at *
    obtain ⟨taken, mid⟩ := result
    have moved := tested.advance
    obtain ⟨wordsLater, withinLater, lengthLater⟩ := ih moved
    constructor
    · intro word member
      rcases List.mem_cons.mp member with rfl | later
      · exact first
      · split at later
        · cases later
        · split at later
          · cases later
          · exact wordsLater word later
    · split
      · exact ⟨tested, same⟩
      · split
        · exact ⟨moved, same⟩
        · split
          · exact ⟨moved, same⟩
          · exact ⟨withinLater, lengthLater.trans same⟩

theorem Within.search (within : Within words s) :
    (∀ word ∈ searchWords now s, word < words) ∧
      ∀ taken next, RoundRobin.search now s = some (taken, next) →
        Within words next ∧ next.peers.length = s.peers.length := by
  constructor
  · intro word member
    unfold searchWords at member
    split at member
    · obtain rfl := List.mem_singleton.mp member
      exact within.some_word
    · split at member
      · exact (within.firstLoop _).1 word member
      · exact (within.nextLoop _).1 word member
  · intro taken next done
    unfold RoundRobin.search at done
    obtain ⟨⟨flag, mid⟩, looped, done⟩ := Option.map_eq_some_iff.mp done
    have kept : Within words mid ∧ mid.peers.length = s.peers.length := by
      split at looped
      · exact (within.firstLoop _).2 flag mid looped
      · have equal := Option.some.inj looped
        have kept := (@Within.nextLoop now s words s.tries within).2
        rw [equal] at kept
        exact kept
    cases flag with
    | false =>
      obtain ⟨_, rfl⟩ := Prod.mk.inj done
      exact kept
    | true =>
      obtain ⟨_, rfl⟩ := Prod.mk.inj done
      obtain ⟨inside, length⟩ := kept
      have sameLength : (take mid).peers.length = mid.peers.length := List.length_set
      exact ⟨⟨inside.some_word, inside.current, by rw [sameLength]; exact inside.peers⟩,
        sameLength.trans length⟩

end Indices

section Runs

variable {words : Nat} {up next : Upstream} {now : Int} {found : Option PeerId} {backup : List Peer}

def backups (up : Upstream) : Nat := (up.backup.getD []).length

theorem backups_some (isBackup : up.backup = some backup) : backups up = backup.length := by
  rw [backups, isBackup]
  rfl

/-- What a request keeps: its peers have bits in the words, and so has the peer in hand. -/
structure Inside (words : Nat) (up : Upstream) : Prop where
  some_word : 0 < words
  current : up.current < 64 * words
  primary : up.primary.length ≤ 64 * words
  backup : backups up ≤ 64 * words
  clear : up.primary.length ≠ 0 → backups up / 64 < words

theorem Inside.withinPrimary (inside : Inside words up) :
    Within words ⟨up.primary, up.current, up.tried, up.tries⟩ :=
  ⟨inside.some_word, inside.current, inside.primary⟩

theorem Inside.withinBackup (inside : Inside words up) (isBackup : up.backup = some backup)
    {current : Nat} (bound : current < 64 * words) (tried : Tried) (tries : Nat) :
    Within words ⟨backup, current, tried, tries⟩ := by
  refine ⟨inside.some_word, bound, ?_⟩
  rw [← backups_some isBackup]
  exact inside.backup

theorem Inside.same_lengths (inside : Inside words up) (current : next.current < 64 * words)
    (primary : next.primary.length = up.primary.length) (backup : backups next = backups up) :
    Inside words next := by
  refine ⟨inside.some_word, current, ?_, ?_, ?_⟩
  · rw [primary]
    exact inside.primary
  · rw [backup]
    exact inside.backup
  · rw [primary, backup]
    exact inside.clear

theorem clearWords_lt {number word : Nat} (bound : number / 64 < words)
    (member : word ∈ clearWords number) : word < words := by
  have below := List.mem_range.mp member
  omega

theorem Inside.getWords (inside : Inside words up) :
    ∀ word ∈ RoundRobin.getWords now up, word < words := by
  intro word member
  unfold RoundRobin.getWords at member
  split at member
  · rename_i isBackup
    exact (inside.withinBackup isBackup inside.current _ _).search.1 word member
  · split at member
    · cases member
    · split at member
      · obtain rfl := List.mem_singleton.mp member
        exact inside.some_word
      · rename_i some_primary
        have cleared : ∀ backup, up.backup = some backup → backup.length / 64 < words := by
          intro backup isBackup
          rw [← backups_some isBackup]
          exact inside.clear fun none => some_primary (List.length_eq_zero_iff.mp none)
        have searched := @Within.search now _ words inside.withinPrimary
        rcases List.mem_append.mp member with first | later
        · exact searched.1 word first
        · split at later
          · rename_i isBackup
            split at later
            · exact clearWords_lt (cleared _ isBackup) later
            · cases later
          · rename_i done isBackup
            rcases List.mem_append.mp later with first | second
            · exact clearWords_lt (cleared _ isBackup) first
            · have bound := (searched.2 _ _ done).1.current
              exact (inside.withinBackup isBackup bound _ _).search.1 word second
          · cases later

theorem Inside.change (inside : Inside words up) (attempt : Attempt) :
    Inside words (RoundRobin.change attempt up) := by
  refine inside.same_lengths inside.current (attempt.primary.length up.primary) ?_
  unfold backups RoundRobin.change
  cases up.backup with
  | none => rfl
  | some backup => exact attempt.backup.length backup

theorem clearFails_length (peers : List Peer) : (clearFails peers).length = peers.length :=
  List.length_map _

theorem Inside.getBackup (inside : Inside words up) (isBackup : up.backup = some backup)
    (got : getBackup now up backup = some (next, found)) : Inside words next := by
  unfold RoundRobin.getBackup at got
  obtain ⟨⟨taken, s⟩, searched, got⟩ := Option.map_eq_some_iff.mp got
  obtain ⟨rfl, _⟩ := Prod.mk.inj got
  obtain ⟨kept, length⟩ :=
    (inside.withinBackup isBackup inside.current up.tried up.tries).search.2 taken s searched
  refine inside.same_lengths kept.current rfl ?_
  rw [backups_some isBackup, ← length]
  unfold backups
  dsimp only [Option.getD]
  split
  · rfl
  · exact clearFails_length _

theorem Inside.get (inside : Inside words up)
    (got : ngxHttpUpstreamGetRoundRobinPeer now up = some (next, found)) : Inside words next := by
  unfold ngxHttpUpstreamGetRoundRobinPeer at got
  split at got
  · rename_i isBackup
    exact inside.getBackup isBackup got
  · split at got
    · obtain ⟨rfl, _⟩ := Prod.mk.inj (Option.some.inj got)
      exact inside
    · obtain ⟨⟨taken, s⟩, searched, got⟩ := Option.bind_eq_some_iff.mp got
      obtain ⟨kept, length⟩ := inside.withinPrimary.search.2 taken s searched
      have after : ∀ other : Upstream, other.current = s.current →
          other.primary.length = s.peers.length → other.backup = up.backup → Inside words other := by
        intro other current primary backup
        refine inside.same_lengths (by rw [current]; exact kept.current) (primary.trans length) ?_
        rw [backups, backup, backups]
      dsimp only at got
      split at got
      · obtain ⟨rfl, _⟩ := Prod.mk.inj (Option.some.inj got)
        exact after _ rfl rfl rfl
      · obtain ⟨rfl, _⟩ := Prod.mk.inj (Option.some.inj got)
        split
        · exact after _ rfl rfl rfl
        · exact after _ rfl rfl rfl
      · obtain ⟨rfl, _⟩ := Prod.mk.inj (Option.some.inj got)
        exact after _ rfl (clearFails_length _) rfl
      · rename_i isBackup
        obtain ⟨⟨up', found'⟩, second, got⟩ := Option.map_eq_some_iff.mp got
        have inside' := Inside.getBackup (by exact after _ rfl rfl rfl) (by exact isBackup) second
        split at got
        · obtain ⟨rfl, _⟩ := Prod.mk.inj got
          exact inside'
        · obtain ⟨rfl, _⟩ := Prod.mk.inj got
          exact inside'.same_lengths inside'.current (clearFails_length _) rfl

theorem Inside.free (inside : Inside words up) (failed : Bool) :
    Inside words (ngxHttpUpstreamFreeRoundRobinPeer now failed up) := by
  have some_word := inside.some_word
  have primaryBound := inside.primary
  have backupBound := inside.backup
  unfold ngxHttpUpstreamFreeRoundRobinPeer
  split
  · exact inside.same_lengths inside.current rfl rfl
  · have lengths : ∀ peers : List Peer, (if failed = true then peers.set up.current
        (failPeer now (peers.getD up.current default)) else peers).length = peers.length := by
      intro peers
      split
      · exact List.length_set
      · rfl
    have advance : ∀ length ≤ 64 * words,
        (if up.current + 1 ≥ length then 0 else up.current + 1) < 64 * words := by
      intro length bound
      split
      · omega
      · omega
    dsimp only
    by_cases onBackup : up.onBackup = true
    · simp only [onBackup, if_true, lengths]
      exact inside.same_lengths (advance _ backupBound) rfl (lengths _)
    · simp only [onBackup, lengths]
      exact inside.same_lengths (advance _ primaryBound) (lengths _) rfl

theorem Inside.tryPeer (inside : Inside words up) {attempt : Attempt}
    (tried : tryPeer attempt up = some (next, found)) : Inside words next := by
  obtain ⟨⟨up', found'⟩, got, shape⟩ := Option.map_eq_some_iff.mp tried
  have kept := (inside.change attempt).get got
  obtain ⟨rfl, rfl⟩ := Prod.mk.inj shape
  split
  · exact kept.free attempt.failed
  · exact kept

theorem Inside.request (inside : Inside words up) (attempts : List Attempt) :
    ∀ word ∈ requestWords attempts up, word < words := by
  induction attempts generalizing up with
  | nil => exact fun word member => (List.not_mem_nil member).elim
  | cons attempt later ih =>
    intro word member
    rw [requestWords] at member
    rcases List.mem_append.mp member with first | rest
    · exact (inside.change attempt).getWords word first
    · cases tried : RoundRobin.tryPeer attempt up with
      | none => simp [tried] at rest
      | some result =>
        obtain ⟨next, found⟩ := result
        simp only [tried] at rest
        split at rest
        · cases rest
        · exact ih (inside.tryPeer tried) word rest

end Runs

section Overrun

variable {now : Int} {peers : List Peer}

/-- A server marked as `down`. -/
def downPeer : Peer := ⟨0, 0, 0, 0, 0, 0, true⟩

def allDown (peers : List Peer) : List Peer := peers.map fun _ => downPeer

theorem findPeer_allDown (i : Nat) : findPeer i (allDown peers) = some none := by
  induction peers generalizing i with
  | nil => rfl
  | cons peer rest ih => exact ih (i + 1)

theorem getPeer_allDown : ngxHttpUpstreamGetPeer (allDown peers) = some (0, allDown peers) := by
  have reset : resetWeights (allDown peers) = allDown peers := by
    simp [resetWeights, allDown, downPeer]
  unfold ngxHttpUpstreamGetPeer
  rw [findPeer_allDown, reset]
  dsimp only [Option.bind]
  rw [findPeer_allDown]
  rfl

theorem firstLoop_allDown (i : Nat) (tried : Tried) (current tries : Nat) (some_peer : peers ≠ []) :
    ∃ s, firstLoop now i ⟨allDown peers, current, tried, tries⟩ = some (false, s) := by
  induction i generalizing tried current tries with
  | zero => exact ⟨_, rfl⟩
  | succ i ih =>
    have first : (allDown peers).getD 0 default = downPeer := by
      obtain ⟨peer, rest, rfl⟩ := List.exists_cons_of_ne_nil some_peer
      rfl
    obtain ⟨tried', tries', turned⟩ : ∃ tried' tries',
        tryCurrent now ⟨allDown peers, 0, tried, tries⟩ =
          (false, ⟨allDown peers, 0, tried', tries'⟩) := by
      unfold tryCurrent
      dsimp only
      split
      · exact ⟨tried, tries, rfl⟩
      · rw [first, if_neg (by decide)]
        exact ⟨_, _, rfl⟩
    rw [firstLoop]
    dsimp only
    rw [getPeer_allDown]
    dsimp only [Option.bind]
    rw [turned]
    dsimp only
    rw [if_neg Bool.false_ne_true]
    split
    · exact ⟨_, rfl⟩
    · split
      · exact ⟨_, rfl⟩
      · exact ih tried' 0 tries'

theorem search_allDown (tried : Tried) (some_peer : peers ≠ []) :
    ∃ s, search now ⟨allDown peers, 0, tried, peers.length⟩ = some (false, s) := by
  have count : (allDown peers).length = peers.length := List.length_map _
  obtain ⟨s, looped⟩ := @firstLoop_allDown now peers peers.length tried 0 peers.length some_peer
  refine ⟨s, ?_⟩
  unfold search
  dsimp only
  rw [if_pos count.symm, looped]
  rfl

theorem getWords_allDown {up : Upstream} {backup : List Peer} (several : up.single = false)
    (first : up.onBackup = false) (isPrimary : up.primary = allDown peers) (some_peer : peers ≠ [])
    (current : up.current = 0) (tries : up.tries = peers.length) (isBackup : up.backup = some backup) :
    backup.length / 64 ∈ getWords now up := by
  obtain ⟨s, searched⟩ := @search_allDown now peers up.tried some_peer
  have some_down : allDown peers ≠ [] := fun none => some_peer (List.map_eq_nil_iff.mp none)
  unfold getWords
  rw [first, isBackup, isPrimary, current, tries, several]
  dsimp only
  rw [if_neg Bool.false_ne_true, if_neg some_down, searched]
  refine List.mem_append_right _ (List.mem_append_left _ ?_)
  exact List.mem_range.mpr (Nat.lt_succ_self _)

end Overrun

def othersDown : Others := ⟨allDown, fun _ => List.length_map _⟩

theorem triedWords_spec (primary : List Peer) (backup : Option (List Peer)) :
    let words := triedWords (configured primary backup)
    0 < words ∧ primary.length ≤ 64 * words ∧ (backup.getD []).length ≤ 64 * words := by
  unfold triedWords configured
  dsimp only
  split
  · split
    · omega
    · omega
  · split
    · omega
    · omega

theorem configured_inside (primary : List Peer) (backup : Option (List Peer))
    (fits : ClearFits primary backup) : Inside (triedWords (configured primary backup))
      (ngxHttpUpstreamInitRoundRobinPeer (configured primary backup)) := by
  obtain ⟨some_word, primaryBound, backupBound⟩ := triedWords_spec primary backup
  refine ⟨some_word, ?_, primaryBound, backupBound, ?_⟩
  · show 0 < _
    omega
  · intro some_primary
    show (backup.getD []).length / 64 < _
    rcases fits with none | fits
    · exact (some_primary (List.length_eq_zero_iff.mpr none)).elim
    · cases backup with
      | none =>
        show 0 / 64 < _
        omega
      | some peers =>
        have lengths : peers.length = 0 ∨ peers.length % 64 ≠ 0 ∨ peers.length < primary.length := by
          rcases fits peers rfl with none | free
          · exact Or.inl (List.length_eq_zero_iff.mpr none)
          · exact Or.inr free
        show peers.length / 64 < _
        dsimp only [Option.getD] at backupBound
        omega

/-- A request stays inside the words of the bitmap, whatever the other requests do to the peers,
exactly when clearing the marks for the backup peers does. -/
theorem tried_inside_iff (primary : List Peer) (backup : Option (List Peer)) :
    (∀ attempts, ∀ word ∈ requestWords attempts
        (ngxHttpUpstreamInitRoundRobinPeer (configured primary backup)),
      word < triedWords (configured primary backup)) ↔ ClearFits primary backup := by
  constructor
  · intro bounded
    by_contra exceeds
    unfold ClearFits at exceeds
    push Not at exceeds
    obtain ⟨some_primary, peers, rfl, some_backup, whole, fewer⟩ := exceeds
    let attempt : Attempt := ⟨0, othersDown, noOthers, false, 0⟩
    have written : peers.length / 64 ∈ requestWords [attempt]
        (ngxHttpUpstreamInitRoundRobinPeer (configured primary (some peers))) := by
      rw [requestWords]
      refine List.mem_append_left _ ?_
      have several : (change attempt (ngxHttpUpstreamInitRoundRobinPeer
          (configured primary (some peers)))).single = false := by
        simp [change, ngxHttpUpstreamInitRoundRobinPeer, configured]
      exact getWords_allDown several rfl rfl some_primary rfl rfl rfl
    have bound := bounded [attempt] _ written
    have lengths : peers.length ≠ 0 := fun none => some_backup (List.length_eq_zero_iff.mp none)
    unfold triedWords configured at bound
    dsimp only [Option.getD] at bound
    split at bound
    · split at bound
      · omega
      · omega
    · split at bound
      · omega
      · omega
  · intro fits attempts
    exact (configured_inside primary backup fits).request attempts

/-- One server that is down and 64 backup servers have the one word `rrp->data`, and two are
cleared. -/
theorem tried_overrun :
    let up := configured [downPeer] (some (List.replicate 64 ⟨1, 1, 0, 0, 1, 10, false⟩))
    triedWords up = 1 ∧
      1 ∈ requestWords [⟨0, noOthers, noOthers, false, 0⟩] (ngxHttpUpstreamInitRoundRobinPeer up) := by
  decide +kernel

end NgxFormal.Http.RoundRobin
