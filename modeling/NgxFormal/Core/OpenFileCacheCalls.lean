import NgxFormal.Core.OpenFileCacheEntries

/-! The calls of `ngx_open_cached_file`: what the system answers, and what becomes of the entry. -/

namespace NgxFormal.Core.OpenFileCache

section Answers

variable {sys : System} {of : OpenFileInfo} {c : Cache} {out : List Nat}

/-- The kernel gives no descriptor that is open. -/
def Fresh (sys : System) (c : Cache) : Prop := ∀ fd, sys.openFile = .ok fd → fd ∉ c.fds

/-- What `ngx_open_and_stat_file` has found, for a descriptor `old` of a file `uniq`: the one it
has is that one, or it is of no entry. -/
structure Answer (out : List Nat) (old : Option Nat) (uniq : Nat) (c c' : Cache) (of : OpenFileInfo) : Prop where
  cache : ∃ fds, c' = { c with fds := fds }
  inv : Inv out c'
  some_ : of.err = 0 → of.isDir = false → of.fd.isSome
  none_ : ¬(of.err = 0 ∧ of.isDir = false) → of.fd = none
  fd : ∀ d, of.fd = some d → old = some d ∧ of.uniq = uniq ∨ Unowned d c'

/-- A call that fails leaves no descriptor, and one whose error is not cached leaves nothing. -/
structure Answered (out : List Nat) (old : Option Nat) (uniq : Nat) (c : Cache) (r : Cache × OpenFileInfo × Rc) :
    Prop where
  failed : notCached r.2.1 r.2.2 → r.1 = c ∧ r.2.1.fd = none
  cached : ¬notCached r.2.1 r.2.2 → Answer out old uniq c r.1 r.2.1

variable {old : Option Nat} {uniq : Nat}

theorem Inv.opens (inv : Inv out c) {d : Nat} (fresh : d ∉ c.fds) :
    Inv out { c with fds := d :: c.fds } ∧ Unowned d { c with fds := d :: c.fds } := by
  refine ⟨⟨⟨inv.sound, inv.nodup, inv.queue, inv.current, inv.live, inv.below, inv.tree, inv.cleanups⟩,
    inv.entries, fun j mem fd has => List.mem_cons_of_mem _ (inv.opened j mem fd has), inv.apart⟩,
    List.mem_cons_self, fun j mem has => ?_⟩
  exact fresh (inv.opened j mem d has)

theorem Inv.closes_again (inv : Inv out c) {d : Nat} (fresh : d ∉ c.fds) :
    ({ c with fds := d :: c.fds } : Cache).closeFile (some d) = c := by
  have unused : ({ c with fds := d :: c.fds } : Cache).inUse d = false := by
    rw [Cache.inUse, List.any_eq_false]
    intro j mem used
    simp only [Bool.and_eq_true, beq_iff_eq] at used
    exact fresh (inv.opened j mem d used.1)
  rw [Cache.closeFile, unused]
  simp [List.erase_cons_head]

theorem answer_none (inv : Inv out c) {of' : OpenFileInfo} (fd : of'.fd = none)
    (other : ¬(of'.err = 0 ∧ of'.isDir = false)) : Answer out old uniq c c of' where
  cache := ⟨c.fds, rfl⟩
  inv := inv
  some_ err isDir := absurd ⟨err, isDir⟩ other
  none_ _ := fd
  fd d has := by
    rw [fd] at has
    cases has

theorem answered_error (inv : Inv out c) {of' : OpenFileInfo} (fd : of'.fd = none) :
    Answered out old uniq c (c, of', .error) where
  failed _ := ⟨rfl, fd⟩
  cached other := answer_none inv fd fun both => other ⟨(fun never => by cases never), Or.inl both.1⟩

theorem answered_ok {c' : Cache} {of' : OpenFileInfo} (answer : Answer out old uniq c c' of') :
    Answered out old uniq c (c', of', .ok) where
  failed never := absurd rfl never.1
  cached _ := answer

theorem openAndStat_answered (inv : Inv out c) (fresh : Fresh sys c) (err : of.err = 0) :
    Answered out old uniq c (openAndStat sys of c) := by
  unfold openAndStat
  cases opened : sys.openFile with
  | error e => exact answered_error inv rfl
  | ok d =>
    have new := fresh d opened
    obtain ⟨inv', unowned⟩ := inv.opens new
    dsimp only
    rw [inv.closes_again new]
    cases sys.fdInfo with
    | none => exact answered_error inv rfl
    | some fi =>
      dsimp only
      split
      · rename_i isDir
        exact answered_ok (answer_none inv rfl fun both => by
          have notDir : fi.isDir = false := both.2
          rw [isDir] at notDir
          cases notDir)
      · rename_i file
        refine answered_ok ⟨⟨_, rfl⟩, inv', fun _ _ => rfl, fun other => ?_, fun d' has => ?_⟩
        · exact absurd ⟨err, Bool.eq_false_iff.mpr file⟩ other
        · cases has
          exact Or.inr unowned

/-- A file with the number of the open one is no directory. -/
def Apart (sys : System) (of : OpenFileInfo) : Prop :=
  ∀ fi, sys.fileInfo = .ok fi → of.fd.isSome → of.uniq = fi.uniq → fi.isDir = false

theorem openAndStatFile_answered (inv : Inv out c) (fresh : Fresh sys c) (err : of.err = 0)
    (apart : Apart sys of) : Answered out of.fd of.uniq c (openAndStatFile sys of c) := by
  unfold openAndStatFile
  split
  · cases info : sys.fileInfo with
    | error e => exact answered_error inv rfl
    | ok fi =>
      dsimp only
      by_cases done : if of.fd.isSome then of.uniq = fi.uniq else fi.isDir = true
      · rw [if_pos done]
        by_cases has : of.fd.isSome = true
        · rw [if_pos has] at done
          have file := apart fi info has done
          exact answered_ok ⟨⟨c.fds, rfl⟩, inv, fun _ _ => has, fun other => absurd ⟨err, file⟩ other,
            fun d same => Or.inl ⟨same, done.symm⟩⟩
        · rw [if_neg has] at done
          refine answered_ok (answer_none inv (Option.not_isSome_iff_eq_none.mp has) fun both => ?_)
          have notDir : fi.isDir = false := both.2
          rw [done] at notDir
          cases notDir
      · rw [if_neg done]
        exact openAndStat_answered inv fresh err
  · exact openAndStat_answered inv fresh err

end Answers

section Entries

variable {of : OpenFileInfo} {c c₀ : Cache} {i : Nat} {out : List Nat}

def handed (of : OpenFileInfo) : Nat := if of.err = 0 ∧ of.isDir = false then 1 else 0

theorem foundFile_inv (now : Int) (inv : Inv out c₀) (near : Near i c₀ c) (shape : Shape [i] c)
    (entry : Entry (refs c i + handed of) True (c.files i))
    (owned : ∀ d, (c.files i).fd = some d → d ∈ c.fds ∧ ∀ j ∈ c₀.live, j ≠ i → (c₀.files j).fd ≠ some d) :
    Inv [] (foundFile now of c i).1 := by
  have inTree : i ∈ c.rbtree := shape.queue.subset List.mem_cons_self
  let file := { c.files i with accessed := now }
  let put := (c.setFile i file).queueInsertHead i
  have putShape : Shape [] put := (shape.setFile i file).queueInsertHead
  have putNear : Near i c₀ put := (near.setFile file).queueInsertHead i
  have own : put.files i = file := setFile_files_self c i file
  have kept (n : Nat) (same : refs c i + handed of = n) : Entry n (i ∈ put.rbtree) (put.files i) := by
    rw [own, ← same]
    exact ⟨entry.count, entry.opened, entry.noFile, fun _ => entry.kept trivial, fun other => absurd inTree other⟩
  have descriptor : ∀ d, (put.files i).fd = some d →
      d ∈ put.fds ∧ ∀ j ∈ c₀.live, j ≠ i → (c₀.files j).fd ≠ some d := by
    rw [own]
    exact owned
  have plain (none_ : handed of = 0) : Inv [] put :=
    inv.near putNear putShape ⟨fun _ => kept _ (by rw [none_]; rfl), fun _ => descriptor⟩
  unfold foundFile
  dsimp only
  split
  · rename_i ok
    split
    · rename_i isDir
      exact plain (if_neg fun both => by simp [isDir] at both)
    · rename_i notDir
      have one : handed of = 1 := if_pos ⟨ok, Bool.eq_false_iff.mpr notDir⟩
      let given : Cache := { put with cleanups := ⟨i, of.minUses⟩ :: put.cleanups }
      have refsGiven (j : Nat) : refs given j = refs put j + if i = j then 1 else 0 := by
        show List.countP _ (⟨i, of.minUses⟩ :: put.cleanups) = _
        rw [List.countP_cons]
        simp [refs]
      have givenShape : Shape [] given :=
        ⟨putShape.sound, putShape.nodup, putShape.queue, putShape.current, putShape.live, putShape.below,
          putShape.tree, fun cln mem => by
            rcases List.mem_cons.mp mem with rfl | mem
            · exact shape.tree i inTree
            · exact putShape.cleanups cln mem⟩
      have givenNear : Near i c₀ given :=
        ⟨putNear.files, putNear.live, putNear.rbtree, fun j other => by
          rw [refsGiven, if_neg (Ne.symm other)]
          exact putNear.refs j other, putNear.fds⟩
      refine inv.near givenNear givenShape ⟨fun _ => kept _ ?_, fun _ => descriptor⟩
      rw [refsGiven, if_pos rfl, one]
      rfl
  · rename_i failed
    exact plain (if_neg fun both => failed both.1)

structure Fits (of : OpenFileInfo) (i : Nat) (c₀ c : Cache) : Prop where
  some_ : of.err = 0 → of.isDir = false → of.fd.isSome
  none_ : ¬(of.err = 0 ∧ of.isDir = false) → of.fd = none
  owned : ∀ d, of.fd = some d → d ∈ c.fds ∧ ∀ j ∈ c₀.live, j ≠ i → (c₀.files j).fd ≠ some d

theorem updateFile_inv (now : Int) (inv : Inv out c₀) (near : Near i c₀ c) (shape : Shape [i] c)
    (count : (c.files i).count.toNat = refs c i) (room : refs c i + 1 < 2 ^ 24) (fits : Fits of i c₀ c)
    (idle : 0 < refs c i → of.err = 0 ∧ of.isDir = false) : Inv [] (updateFile now of c i).1 := by
  unfold updateFile
  dsimp only
  split
  · rename_i ok
    refine foundFile_inv now inv (near.setFile _) (shape.setFile i _) ?_ ?_
    · rw [setFile_files_self]
      cases isDir : of.isDir with
      | true =>
        have other : ¬(of.err = 0 ∧ of.isDir = false) := by simp [isDir]
        have zero : refs c i = 0 := Nat.eq_zero_of_not_pos fun used => other (idle used)
        refine ⟨?_, fun used => ?_, fun _ => fits.none_ other, fun _ _ => rfl, fun never => absurd trivial never⟩
        · show (c.files i).count.toNat = refs c i + handed of
          rw [count, handed, if_neg other]
          rfl
        · have none_ : refs c i + handed of = 0 := by rw [zero, handed, if_neg other]
          exact absurd used (by show ¬ 0 < refs c i + handed of; omega)
      | false =>
        have one : handed of = 1 := if_pos ⟨ok, isDir⟩
        refine ⟨?_, fun _ => ⟨⟨ok, rfl⟩, fits.some_ ok isDir⟩, fun other => absurd ⟨ok, rfl⟩ other,
          fun _ _ => rfl, fun never => absurd trivial never⟩
        show ((c.files i).count + 1).toNat = refs c i + handed of
        rw [one]
        bv_omega
    · rw [setFile_files_self]
      exact fits.owned
  · rename_i failed
    have other : ¬(of.err = 0 ∧ of.isDir = false) := fun both => failed both.1
    have zero : refs c i = 0 := Nat.eq_zero_of_not_pos fun used => other (idle used)
    refine foundFile_inv now inv (near.setFile _) (shape.setFile i _) ?_ ?_
    · rw [setFile_files_self]
      refine ⟨?_, fun used => ?_, fun _ => fits.none_ other, fun _ plain => absurd plain.1 failed,
        fun never => absurd trivial never⟩
      · show (c.files i).count.toNat = refs c i + handed of
        rw [count, handed, if_neg other]
        rfl
      · have none_ : refs c i + handed of = 0 := by rw [zero, handed, if_neg other]
        exact absurd used (by show ¬ 0 < refs c i + handed of; omega)
    · rw [setFile_files_self]
      exact fits.owned

/-- A descriptor that no entry has is closed. -/
theorem Inv.closeFile (inv : Inv out c) {fd : Option Nat} (unowned : ∀ d, fd = some d → Unowned d c) :
    Inv out (c.closeFile fd) := by
  cases fd with
  | none => exact inv
  | some d =>
    obtain ⟨opened, others⟩ := unowned d rfl
    have unused : c.inUse d = false := by
      rw [Cache.inUse, List.any_eq_false]
      intro j mem used
      simp only [Bool.and_eq_true, beq_iff_eq] at used
      exact others j mem used.1
    have shape : Shape out (c.closeFile (some d)) := inv.toShape.closeFile (some d) fun d' same => by
      cases same
      exact ⟨opened, unused⟩
    refine ⟨shape, inv.entries, fun j mem fd has => ?_, inv.apart⟩
    have differ : fd ≠ d := fun same => others j mem (same ▸ has)
    exact (List.mem_erase_of_ne differ).2 (inv.opened j mem fd has)

theorem Inv.detach (inv : Inv [i] c) (used : (c.files i).count ≠ 0) :
    Inv [] ((c.rbtreeDelete i).setFile i { c.files i with close := true }) := by
  have live := inv.tree i (inv.queue.subset List.mem_cons_self)
  have entry := inv.entries i live
  have pos : 0 < refs c i := Nat.pos_of_ne_zero fun zero => used (entry.count_eq_zero.2 zero)
  have own := entry.opened pos
  have outside : i ∉ (c.rbtreeDelete i).rbtree := fun mem => (inv.nodup.mem_erase_iff.1 mem).1 rfl
  refine inv.near ((inv.refl_near i).rbtreeDelete.setFile _) (inv.toShape.rbtreeDelete.setFile i _)
    ⟨fun _ => ?_, fun _ d has => ?_⟩
  · rw [setFile_files_self]
    exact ⟨entry.count, fun _ => own, fun other => absurd own.1 other,
      fun mem => absurd mem outside, fun _ => ⟨rfl, pos⟩⟩
  · rw [setFile_files_self] at has
    exact ⟨inv.opened i live d has, fun j mem other has' => other (inv.apart j mem i live d has' has)⟩

theorem failedFile_inv (inv : Inv [i] c) (fd : of.fd = none) : Inv [] (failedFile of (some i) c).1 := by
  have inTree : i ∈ c.rbtree := inv.queue.subset List.mem_cons_self
  have live := inv.tree i inTree
  have entry := inv.entries i live
  have shape : Shape [] (c.rbtreeDelete i) := inv.toShape.rbtreeDelete
  have near : Near i c (c.rbtreeDelete i) := (inv.refl_near i).rbtreeDelete
  have outside : i ∉ (c.rbtreeDelete i).rbtree := fun mem => (inv.nodup.mem_erase_iff.1 mem).1 rfl
  unfold failedFile
  dsimp only
  rw [fd, Cache.closeFile]
  split
  · rename_i unused
    have none_ : refs c i = 0 := entry.count_eq_zero.1 unused
    have closed : Shape [] ((c.rbtreeDelete i).closeFile (c.files i).fd) :=
      shape.closeFile _ (inv.closes live none_)
    have same : ∀ fd, ((c.rbtreeDelete i).closeFile fd).live = c.live ∧
        ((c.rbtreeDelete i).closeFile fd).rbtree = (c.rbtreeDelete i).rbtree ∧
        ((c.rbtreeDelete i).closeFile fd).cleanups = c.cleanups ∧
        ((c.rbtreeDelete i).closeFile fd).files = c.files := by
      intro fd
      cases fd <;> exact ⟨rfl, rfl, rfl, rfl⟩
    obtain ⟨lives, trees, cleanups, files⟩ := same (c.files i).fd
    have gone : i ∉ (((c.rbtreeDelete i).closeFile (c.files i).fd).free i).live := by
      intro mem
      exact (closed.live.mem_erase_iff.1 mem).1 rfl
    refine inv.near (near.closeFile (inv.others live)).free ?_
      ⟨fun mem => absurd mem gone, fun mem => absurd mem gone⟩
    refine closed.free (lives ▸ live) ?_ (trees ▸ outside) ?_
    · rw [files]
      exact unused
    · rw [refs, cleanups]
      exact none_
  · rename_i used
    exact inv.detach used

/-- `create` -/
theorem createFile_inv (now : Int) (sys : System) (key : Nat) (name : List UInt8) (inv : Inv [] c)
    (some_ : of.err = 0 → of.isDir = false → of.fd.isSome)
    (none_ : ¬(of.err = 0 ∧ of.isDir = false) → of.fd = none)
    (unowned : ∀ d, of.fd = some d → Unowned d c) : Inv [] (createFile now sys key name of c).1 := by
  have expired : ∃ m, (if c.max ≤ c.current then expireOldCachedFiles now 0 c else c) = m ∧ Inv [] m ∧
      ∀ d, of.fd = some d → Unowned d m := by
    split
    · have left := expireOldCachedFiles_inv now 0 inv
      exact ⟨_, rfl, left.1, fun d has => left.2 d (unowned d has)⟩
    · exact ⟨c, rfl, inv, unowned⟩
  obtain ⟨m, same, inv, unowned⟩ := expired
  unfold createFile
  dsimp only
  rw [same]
  cases sys.alloc with
  | none => exact inv.closeFile unowned
  | some memory =>
    dsimp only
    let file : File := { memory with key := key, name := name, uses := 1, count := 0 }
    let put : Cache := { m.setFile m.next file with live := m.next :: m.live, next := m.next + 1 }
    have fresh : m.next ∉ m.live := fun mem => absurd (inv.below _ mem) (Nat.lt_irrefl _)
    have outside : m.next ∉ m.rbtree := fun mem => fresh (inv.tree _ mem)
    have refs_ : refs (put.rbtreeInsert m.next) m.next = 0 := by
      apply List.countP_eq_zero.2
      intro cln mem own
      rw [beq_iff_eq] at own
      exact fresh (own ▸ inv.cleanups cln mem)
    have shape : Shape [m.next] (put.rbtreeInsert m.next) := by
      refine ⟨?_, List.nodup_cons.2 ⟨outside, inv.nodup⟩, inv.queue.cons _, ?_,
        List.nodup_cons.2 ⟨fresh, inv.live⟩, ?_, ?_, fun cln mem => List.mem_cons_of_mem _ (inv.cleanups cln mem)⟩
      · show (m.sound && !m.rbtree.contains m.next) = true
        simp [inv.sound, outside]
      · exact congrArg (· + 1) inv.current
      · intro j mem
        rcases List.mem_cons.1 mem with rfl | mem
        · exact Nat.lt_succ_self _
        · exact Nat.lt_succ_of_lt (inv.below j mem)
      · intro j mem
        rcases List.mem_cons.1 mem with rfl | mem
        · exact List.mem_cons_self
        · exact List.mem_cons_of_mem _ (inv.tree j mem)
    have near : Near m.next m (put.rbtreeInsert m.next) :=
      ⟨fun j other => setFile_files_other m file other, fun j other => List.mem_cons.trans (or_iff_right other),
        fun j other => List.mem_cons.trans (or_iff_right other), fun _ _ => rfl, fun j mem _ => inv.opened j mem⟩
    have own : (put.rbtreeInsert m.next).files m.next = file := setFile_files_self m m.next file
    refine updateFile_inv now inv near shape ?_ ?_ ⟨some_, none_, fun d has => ?_⟩ fun used => ?_
    · rw [own, refs_]
      rfl
    · rw [refs_]
      decide
    · exact ⟨(unowned d has).opened, fun j mem _ => (unowned d has).unowned j mem⟩
    · rw [refs_] at used
      exact absurd used (Nat.lt_irrefl 0)

theorem retestFile_inv (now : Int) {sys : System} (key : Nat) (name : List UInt8) (inv : Inv [i] c)
    (fresh : Fresh sys c) (err : of.err = 0)
    (apart : Apart sys { of with fd := (c.files i).fd, uniq := (c.files i).uniq })
    (room : (c.files i).count.toNat + 1 < 2 ^ 24) : Inv [] (retestFile now sys key name of c i).1 := by
  have inTree : i ∈ c.rbtree := inv.queue.subset List.mem_cons_self
  have live := inv.tree i inTree
  have entry := inv.entries i live
  rw [entry.count] at room
  let asked : OpenFileInfo := { of with
    testDir := of.testDir || (c.files i).isDir
    fd := (c.files i).fd
    uniq := (c.files i).uniq }
  have answered : Answered [i] asked.fd asked.uniq c (openAndStatFile sys asked c) :=
    openAndStatFile_answered inv fresh err apart
  unfold retestFile
  dsimp only
  generalize openAndStatFile sys asked c = r at answered
  obtain ⟨c', found, rc⟩ := r
  dsimp only
  split
  · rename_i lost
    obtain ⟨rfl, none_⟩ := answered.failed lost
    exact failedFile_inv inv none_
  · rename_i kept
    obtain ⟨⟨fds, rfl⟩, inv', some_, none_, descriptor⟩ := answered.cached kept
    -- an entry that is no file has no descriptor and no cleanups
    have plain : 0 < refs c i → (c.files i).plain := fun used => (entry.opened used).1
    have others : ∀ d, (c.files i).fd = some d → ∀ j ∈ c.live, j ≠ i → (c.files j).fd ≠ some d :=
      fun d has j mem other has' => other (inv.apart j mem i live d has' has)
    split
    · rename_i same
      have idle : 0 < refs c i → found.err = 0 ∧ found.isDir = false := by
        intro used
        obtain ⟨noErr, noDir⟩ := plain used
        unfold updates at same
        split at same
        · simp [noErr, noDir] at same
        · rename_i notDir
          split at same
          · rename_i ok
            exact ⟨ok, Bool.eq_false_iff.mpr notDir⟩
          · simp [noErr, noDir] at same
      have given : ∃ given : OpenFileInfo, given.err = found.err ∧ given.isDir = found.isDir ∧
          given.fd = found.fd ∧ (if found.isDir = false ∧ found.err = 0 ∧
            ¬((c.files i).isDir = true ∨ (c.files i).err ≠ 0) then
            { found with isDirectio := (c.files i).isDirectio } else found) = given := by
        split
        all_goals
          refine ⟨_, ?_, ?_, ?_, rfl⟩
          all_goals rfl
      obtain ⟨given, err', isDir', fd', eq⟩ := given
      rw [eq]
      rw [← err', ← isDir', ← fd'] at some_ none_
      rw [← err', ← isDir'] at idle
      refine updateFile_inv now inv' (inv'.refl_near i) inv'.toShape entry.count room
        ⟨some_, none_, fun d has => ?_⟩ idle
      rw [fd'] at has
      rcases descriptor d has with old | unowned
      · exact ⟨inv'.opened i live d old.1, others d old.1⟩
      · exact ⟨unowned.opened, fun j mem _ => unowned.unowned j mem⟩
    · rename_i changes
      -- the descriptor of the entry is not the one of another file
      have new : ∀ d, found.fd = some d → Unowned d { c with fds := fds } := by
        intro d has
        rcases descriptor d has with old | unowned
        · have file : found.err = 0 ∧ found.isDir = false := by
            by_contra other
            rw [none_ other] at has
            cases has
          have same : updates found (c.files i) := by
            rw [updates, if_neg (by simp [file.2]), if_pos file.1]
            exact Or.inr (Or.inr old.2)
          exact absurd same changes
        · exact unowned
      split
      · rename_i unused
        have none' : refs c i = 0 := entry.count_eq_zero.1 unused
        have same : ∀ fd, (({ c with fds := fds } : Cache).closeFile fd).files = c.files ∧
            refs (({ c with fds := fds } : Cache).closeFile fd) i = refs c i := by
          intro fd
          cases fd <;> exact ⟨rfl, rfl⟩
        obtain ⟨files, refs'⟩ := same (c.files i).fd
        refine updateFile_inv now inv' ((inv'.refl_near i).closeFile (inv'.others live))
          (inv'.toShape.closeFile _ (inv'.closes live none')) ?_ ?_ ⟨some_, none_, fun d has => ?_⟩ fun used => ?_
        · rw [files, refs']
          exact entry.count
        · rw [refs']
          exact room
        · have unowned := (new d has).closeFile ((new d has).unowned i live)
          exact ⟨unowned.opened, fun j mem _ => (new d has).unowned j mem⟩
        · rw [refs', none'] at used
          exact absurd used (Nat.lt_irrefl 0)
      · rename_i used
        refine createFile_inv now sys key name (inv'.detach used) some_ none_ fun d has => ?_
        exact (⟨(new d has).opened, (new d has).unowned⟩ : Unowned d
          (({ c with fds := fds } : Cache).rbtreeDelete i)).setFile ((new d has).unowned i live)

theorem Inv.taken (inv : Inv [] c) (mem : i ∈ c.rbtree) :
    Inv [i] ((c.setFile i { c.files i with uses := (c.files i).uses + 1 }).queueRemove i) := by
  have entry := inv.entries i (inv.tree i mem)
  have used : Entry (refs c i) (i ∈ c.rbtree) { c.files i with uses := (c.files i).uses + 1 } :=
    ⟨entry.count, entry.opened, entry.noFile, entry.kept, entry.outside⟩
  exact (inv.touch (inv.tree i mem) used rfl).queueRemove (inv.queue.symm.subset mem)

theorem reopen_inv (now : Int) {sys : System} (inv : Inv [i] c) (fresh : Fresh sys c) (fd : of.fd = none)
    (err : of.err = 0) (closed : (c.files i).fd = none) (r : Cache × OpenFileInfo × Rc)
    (answer : openAndStatFile sys of c = r) :
    Inv [] (if notCached r.2.1 r.2.2 then failedFile r.2.1 (some i) r.1 else updateFile now r.2.1 r.1 i).1 := by
  have live := inv.tree i (inv.queue.subset List.mem_cons_self)
  have entry := inv.entries i live
  have none' : refs c i = 0 := by
    by_contra used
    have has := (entry.opened (Nat.pos_of_ne_zero used)).2
    rw [closed] at has
    cases has
  have apart : Apart sys of := fun fi _ has => by
    rw [fd] at has
    cases has
  have answered := openAndStatFile_answered inv fresh err apart
  rw [answer] at answered
  obtain ⟨c', found, rc⟩ := r
  dsimp only
  split
  · rename_i lost
    obtain ⟨rfl, none_⟩ := answered.failed lost
    exact failedFile_inv inv none_
  · rename_i kept
    obtain ⟨⟨fds, rfl⟩, inv', some_, none_, descriptor⟩ := answered.cached kept
    refine updateFile_inv now inv' (inv'.refl_near i) inv'.toShape entry.count ?_
      ⟨some_, none_, fun d has => ?_⟩ fun used => ?_
    · rw [show refs { c with fds := fds } i = 0 from none']
      decide
    · rcases descriptor d has with old | unowned
      · rw [fd] at old
        cases old.1
      · exact ⟨unowned.opened, fun j mem _ => unowned.unowned j mem⟩
    · rw [show refs { c with fds := fds } i = 0 from none'] at used
      exact absurd used (Nat.lt_irrefl 0)

theorem cached_inv (now : Int) (inv : Inv [i] c) (err : of.err = 0)
    (has : ¬((c.files i).fd = none ∧ (c.files i).err = 0 ∧ (c.files i).isDir = false))
    (room : (c.files i).count.toNat + 1 < 2 ^ 24) :
    Inv [] (foundFile now (cachedInfo of (c.files i))
      (if (c.files i).err = 0 ∧ (c.files i).isDir = false then
        c.setFile i { c.files i with count := (c.files i).count + 1 } else c) i).1 := by
  have live := inv.tree i (inv.queue.subset List.mem_cons_self)
  have inTree : i ∈ c.rbtree := inv.queue.subset List.mem_cons_self
  have entry := inv.entries i live
  have owned : ∀ d, (c.files i).fd = some d → d ∈ c.fds ∧ ∀ j ∈ c.live, j ≠ i → (c.files j).fd ≠ some d :=
    fun d has => ⟨inv.opened i live d has, fun j mem other has' => other (inv.apart j mem i live d has' has)⟩
  split
  · rename_i plain
    have open_ : (c.files i).fd.isSome :=
      Option.isSome_iff_ne_none.mpr fun none_ => has ⟨none_, plain.1, plain.2⟩
    have one : handed (cachedInfo of (c.files i)) = 1 := by
      rw [handed, cachedInfo, if_pos plain.1]
      exact if_pos ⟨err, plain.2⟩
    refine foundFile_inv now inv ((inv.refl_near i).setFile _) (inv.toShape.setFile i _) ?_ ?_
    · rw [setFile_files_self, one]
      have count := entry.count
      refine ⟨?_, fun _ => ⟨plain, open_⟩, fun other => absurd plain other,
        fun _ _ => entry.kept inTree plain, fun never => absurd trivial never⟩
      show ((c.files i).count + 1).toNat = refs c i + 1
      bv_omega
    · rw [setFile_files_self]
      exact owned
  · rename_i other
    have zero : handed (cachedInfo of (c.files i)) = 0 := by
      rw [handed, cachedInfo]
      split
      · rename_i ok
        exact if_neg fun both => other ⟨ok, both.2⟩
      · rename_i failed
        exact if_neg fun both => failed both.1
    refine foundFile_inv now inv (inv.refl_near i) inv.toShape ?_ owned
    rw [zero]
    exact ⟨entry.count, entry.opened, entry.noFile, fun _ => entry.kept inTree, fun never => absurd trivial never⟩

end Entries

section Runs

variable {crc32 : List UInt8 → Nat} {c : Cache}

def Retested (now : Int) (of : OpenFileInfo) (file : File) : Prop :=
  ¬(file.fd = none ∧ file.err = 0 ∧ file.isDir = false) ∧
    ¬((of.uniq = 0 ∨ of.uniq = file.uniq) ∧ now - file.created < of.valid)

/-- The count of an entry does not wrap, and a directory does not have the number of its open file. -/
def Plain (crc32 : List UInt8 → Nat) (c : Cache) : Event → Prop
  | .openFile now sys name of => ∀ i, openFileLookup (crc32 name) name c = some i →
      (c.files i).count.toNat + 1 < 2 ^ 24 ∧
        (Retested now of (c.files i) → ∀ fi, sys.fileInfo = .ok fi → (c.files i).fd.isSome →
          (c.files i).uniq = fi.uniq → fi.isDir = false)
  | .cleanup _ _ => True

/-- The kernel gives new descriptors. -/
def Kernel (c : Cache) : Event → Prop
  | .openFile _ sys _ _ => Fresh sys c
  | .cleanup _ _ => True

theorem openCachedFile_inv (now : Int) {sys : System} (key : Nat) (name : List UInt8) {of : OpenFileInfo}
    (inv : Inv [] c) (fresh : Fresh sys c)
    (plain : ∀ i, openFileLookup key name c = some i → (c.files i).count.toNat + 1 < 2 ^ 24 ∧
      (Retested now of (c.files i) → ∀ fi, sys.fileInfo = .ok fi → (c.files i).fd.isSome →
        (c.files i).uniq = fi.uniq → fi.isDir = false)) :
    Inv [] (openCachedFile now sys key name of c).1 := by
  unfold openCachedFile
  dsimp only
  split
  · exact inv
  cases found : openFileLookup key name c with
  | none =>
    dsimp only
    have apart : Apart sys { of with fd := none, err := 0 } := fun fi _ has => by cases has
    have answered := @openAndStatFile_answered sys { of with fd := none, err := 0 } c [] inv fresh rfl apart
    generalize openAndStatFile sys { of with fd := none, err := 0 } c = r at answered
    obtain ⟨c', of', rc⟩ := r
    dsimp only
    split
    · rename_i lost
      obtain ⟨rfl, none_⟩ := answered.failed lost
      refine inv.closeFile fun d has => ?_
      dsimp only at none_
      rw [none_] at has
      cases has
    · rename_i kept
      have answer := answered.cached kept
      refine createFile_inv now sys key _ answer.inv answer.some_ answer.none_ fun d has => ?_
      rcases answer.fd d has with old | unowned
      · cases old.1
      · exact unowned
  | some i =>
    have mem : i ∈ c.rbtree := List.mem_of_find?_eq_some found
    obtain ⟨room, apart⟩ := plain i found
    have taken := inv.taken mem
    have own : ((c.setFile i { c.files i with uses := (c.files i).uses + 1 }).queueRemove i).files i =
        { c.files i with uses := (c.files i).uses + 1 } := setFile_files_self c i _
    have freshTaken : Fresh sys ((c.setFile i { c.files i with uses := (c.files i).uses + 1 }).queueRemove i) :=
      fresh
    dsimp only
    split
    · rename_i closed
      exact reopen_inv now taken freshTaken rfl rfl (by rw [own]; exact closed.1) _ rfl
    · rename_i has
      split
      · have cached := @cached_inv { of with fd := none, err := 0 } _ i now taken rfl
          (by rw [own]; exact has) (by rw [own]; exact room)
        rw [own] at cached
        exact cached
      · rename_i stale
        refine retestFile_inv now key _ taken freshTaken rfl ?_ (by rw [own]; exact room)
        rw [own]
        exact fun fi info has' same => apart ⟨has, stale⟩ fi info has' same

theorem step_inv {event : Event} (inv : Inv [] c) (kernel : Kernel c event) (plain : Plain crc32 c event) :
    Inv [] (step crc32 c event) := by
  cases event with
  | openFile now sys name of => exact openCachedFile_inv now _ name inv kernel plain
  | cleanup now turn =>
    rw [step]
    split
    · exact inv
    · rename_i cln at_
      exact openFileCleanup_inv now inv at_

/-- The steps of a run meet a condition. -/
def Along (holds : Cache → Event → Prop) (crc32 : List UInt8 → Nat) : Cache → List Event → Prop
  | _, [] => True
  | c, event :: events => holds c event ∧ Along holds crc32 (step crc32 c event) events

theorem run_inv (events : List Event) (inv : Inv [] c) (kernel : Along Kernel crc32 c events)
    (plain : Along (Plain crc32) crc32 c events) : Inv [] (run crc32 c events) := by
  induction events generalizing c with
  | nil => exact inv
  | cons event events ih => exact ih (step_inv inv kernel.1 plain.1) kernel.2 plain.2

theorem init_inv (files : Nat → File) (fds : List Nat) (max : Nat) (inactive : Int) :
    Inv [] (Cache.init files fds max inactive) :=
  ⟨⟨rfl, List.nodup_nil, List.Perm.refl _, rfl, List.nodup_nil, fun _ mem => absurd mem List.not_mem_nil,
    fun _ mem => absurd mem List.not_mem_nil, fun _ mem => absurd mem List.not_mem_nil⟩,
    fun _ mem => absurd mem List.not_mem_nil, fun _ mem => absurd mem List.not_mem_nil,
    fun _ mem => absurd mem List.not_mem_nil⟩

/-- What holds of the entries of a cache. -/
structure Consistent (c : Cache) : Prop where
  tree : ∀ i, i ∈ c.rbtree ↔ i ∈ c.expireQueue
  current : c.current = c.rbtree.length
  count : ∀ i ∈ c.live, (c.files i).count.toNat = refs c i
  outside : ∀ i ∈ c.live, i ∉ c.rbtree → (c.files i).close = true ∧ (c.files i).count ≠ 0
  sound : c.sound = true

/-- In every run in which no count wraps and no directory has the number of an open file, the cache is
consistent. -/
theorem run_consistent (crc32 : List UInt8 → Nat) (files : Nat → File) (fds : List Nat) (max : Nat)
    (inactive : Int) (events : List Event)
    (kernel : Along Kernel crc32 (Cache.init files fds max inactive) events)
    (plain : Along (Plain crc32) crc32 (Cache.init files fds max inactive) events) :
    Consistent (run crc32 (Cache.init files fds max inactive) events) := by
  have inv := run_inv events (init_inv files fds max inactive) kernel plain
  refine ⟨fun i => inv.queue.symm.mem_iff, inv.current, fun i mem => (inv.entries i mem).count,
    fun i mem outside => ?_, inv.sound⟩
  have entry := inv.entries i mem
  obtain ⟨close, used⟩ := entry.outside outside
  refine ⟨close, fun zero => ?_⟩
  rw [entry.count_eq_zero.1 zero] at used
  exact absurd used (Nat.lt_irrefl 0)

/-- The entry of every pool cleanup still to run has an open descriptor that no other entry has. -/
def OwnDescriptors (c : Cache) : Prop :=
  ∀ cln ∈ c.cleanups, ∃ fd ∈ c.fds, (c.files cln.file).fd = some fd ∧
    ∀ j ∈ c.live, (c.files j).fd = some fd → j = cln.file

theorem run_descriptors (crc32 : List UInt8 → Nat) (files : Nat → File) (fds : List Nat) (max : Nat)
    (inactive : Int) (events : List Event)
    (kernel : Along Kernel crc32 (Cache.init files fds max inactive) events)
    (plain : Along (Plain crc32) crc32 (Cache.init files fds max inactive) events) :
    OwnDescriptors (run crc32 (Cache.init files fds max inactive) events) := by
  intro cln pending
  have inv := run_inv events (init_inv files fds max inactive) kernel plain
  have live := inv.cleanups cln pending
  have used : 0 < refs _ cln.file := List.countP_pos_iff.2 ⟨cln, pending, beq_self_eq_true _⟩
  obtain ⟨fd, has⟩ := Option.isSome_iff_exists.1 ((inv.entries _ live).opened used).2
  exact ⟨fd, inv.opened _ live fd has, has, fun j mem same => inv.apart j mem _ live fd same has⟩

def emptyFile : File where
  key := 0
  name := []
  created := 0
  accessed := 0
  fd := none
  uniq := 0
  mtime := 0
  size := 0
  err := 0
  uses := 0
  count := 0
  close := false
  isDir := false
  isFile := false
  isLink := false
  isExec := false
  isDirectio := false

/-- `open_file_cache_valid 0` -/
def askInfo : OpenFileInfo where
  fd := none
  uniq := 0
  mtime := 0
  size := 0
  fsSize := 0
  directio := 1
  err := 0
  failed := none
  valid := 0
  minUses := 1
  testDir := false
  errors := false
  isDir := false
  isFile := false
  isLink := false
  isExec := false
  isDirectio := false

/-- A file or a directory with a number. -/
def statOf (uniq : Nat) (isDir : Bool) : FileInfo :=
  ⟨uniq, 0, 0, 0, isDir, !isDir, false, false⟩

/-- A system with a descriptor for the next file. -/
def answersWith (info : Except Errno FileInfo) (fd uniq : Nat) : System where
  fileInfo := info
  openFile := .ok fd
  fdInfo := some (statOf uniq false)
  directioOn := false
  cleanupAdd := true
  alloc := some emptyFile

def emptyCache : Cache := Cache.init (fun _ => emptyFile) [] 10 10

/-- `a` is opened twice. -/
def openedTwice : List Event :=
  [.openFile 0 (answersWith (.ok (statOf 5 false)) 3 5) [97] askInfo,
    .openFile 1 (answersWith (.ok (statOf 5 false)) 4 5) [97] askInfo]

theorem openedTwice_kernel : Along Kernel (fun _ => 0) emptyCache openedTwice := by
  refine ⟨fun fd _ mem => absurd mem List.not_mem_nil, ?_, trivial⟩
  intro fd same
  cases same
  decide

theorem openedTwice_plain : Along (Plain fun _ => 0) (fun _ => 0) emptyCache openedTwice := by
  refine ⟨?_, ?_, trivial⟩
  · intro i found
    cases found
  · intro i found
    have first : some 0 = some i := found
    cases first
    refine ⟨by decide, fun _ fi same _ _ => ?_⟩
    cases same
    rfl

theorem run_consistent_twice : Consistent (run (fun _ => 0) emptyCache openedTwice) :=
  run_consistent (fun _ => 0) (fun _ => emptyFile) [] 10 10 openedTwice openedTwice_kernel openedTwice_plain

theorem run_descriptors_twice : OwnDescriptors (run (fun _ => 0) emptyCache openedTwice) :=
  run_descriptors (fun _ => 0) (fun _ => emptyFile) [] 10 10 openedTwice openedTwice_kernel openedTwice_plain

/-- `a` becomes a directory with the number of the file; `b` gets the descriptor, and then `a` is gone. -/
def becomesDirectory : List Event :=
  [.openFile 0 (answersWith (.ok (statOf 5 false)) 3 5) [97] askInfo,
    .cleanup 0 0,
    .openFile 1 (answersWith (.ok (statOf 5 true)) 4 5) [97] askInfo,
    .openFile 1 (answersWith (.ok (statOf 6 false)) 3 6) [98] askInfo,
    .openFile 2 (answersWith (.error ⟨2, by decide⟩) 4 5) [97] askInfo]

/-- The descriptor of `b` is closed, which a request uses. -/
theorem run_inconsistent :
    Along Kernel (fun _ => 0) emptyCache becomesDirectory ∧
      ¬Consistent (run (fun _ => 0) emptyCache becomesDirectory) := by
  refine ⟨⟨?_, trivial, ?_, ?_, ?_, trivial⟩, fun consistent => ?_⟩
  iterate 4
    · intro fd same
      cases same
      decide
  have lost : (run (fun _ => 0) emptyCache becomesDirectory).sound = false := by decide +kernel
  rw [consistent.sound] at lost
  cases lost

end Runs

end NgxFormal.Core.OpenFileCache
