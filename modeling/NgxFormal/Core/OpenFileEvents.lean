import NgxFormal.Core.OpenFileCacheCalls

/-! The open file cache with vnode events. An event can be delivered from `ngx_add_event` on, until
`ngx_del_event` or its delivery. -/

namespace NgxFormal.Core.OpenFileCache

/-- The cache, `file->event` and `file->use_event` of its entries, and `fev->file` of the events that can
be delivered. -/
structure Watched where
  cache : Cache
  event : Nat → Bool
  useEvent : Nat → Bool
  armed : List Nat

/-- `NGX_USE_VNODE_EVENT`, `of->events`, and whether the allocations and `ngx_add_event` succeed. -/
structure Vnode where
  use : Bool
  events : Bool
  added : Bool

/-- `ngx_open_file_add_event` -/
def openFileAddEvent (v : Vnode) (of : OpenFileInfo) (w : Watched) (i : Nat) : Watched :=
  if v.use = false ∨ v.events = false ∨ w.event i = true ∨ of.fd = none ∨
      (w.cache.files i).uses.toNat < of.minUses then w
  else
    { w with
      useEvent := Function.update w.useEvent i false
      event := Function.update w.event i v.added
      armed := if v.added then i :: w.armed else w.armed }

/-- `ngx_open_file_del_event` -/
def openFileDelEvent (w : Watched) (i : Nat) : Watched :=
  if w.event i = false then w
  else
    { w with
      armed := w.armed.erase i
      event := Function.update w.event i false
      useEvent := Function.update w.useEvent i false }

/-- `ngx_close_cached_file` -/
def closeWatchedFile (now : Int) (minUses : Nat) (w : Watched) (i : Nat) : Watched :=
  let file := w.cache.files i
  if file.close then { openFileDelEvent w i with cache := closeUnused w.cache i }
  else
    let c := ((w.cache.setFile i { file with accessed := now }).queueRemove i).queueInsertHead i
    if minUses ≤ file.uses.toNat ∨ file.count ≠ 0 then { w with cache := c }
    else { openFileDelEvent w i with cache := closeUnused c i }

def expireLastWatched (now : Int) (w : Watched) (i : Nat) : Watched :=
  let c := (w.cache.queueRemove i).rbtreeDelete i
  let file := c.files i
  if file.err = 0 ∧ file.isDir = false then
    closeWatchedFile now 0 { w with cache := c.setFile i { file with close := true } } i
  else { w with cache := c.free i }

def expireWatchedTurns (now : Int) : Nat → Bool → Watched → Watched
  | 0, _, w => w
  | turns + 1, force, w =>
    match w.cache.expireQueue.getLast? with
    | none => w
    | some i =>
      if force = false ∧ now - (w.cache.files i).accessed ≤ w.cache.inactive then w
      else expireWatchedTurns now turns false (expireLastWatched now w i)

/-- `ngx_expire_old_cached_files` -/
def expireWatchedFiles (now : Int) (n : Nat) (w : Watched) : Watched :=
  expireWatchedTurns now (3 - n) (n == 0) w

/-- `ngx_open_file_cleanup` -/
def watchedCleanup (now : Int) (cln : Cleanup) (w : Watched) : Watched :=
  let file := w.cache.files cln.file
  expireWatchedFiles now 1 (closeWatchedFile now cln.minUses
    { w with cache := w.cache.setFile cln.file { file with count := file.count - 1 } } cln.file)

/-- What a call makes of the cache alone. -/
def Watched.call (w : Watched) (r : Cache × OpenFileInfo × Rc) : Watched × OpenFileInfo × Rc :=
  ({ w with cache := r.1 }, r.2)

/-- `add_event` and `update` -/
def addWatched (now : Int) (v : Vnode) (of : OpenFileInfo) (w : Watched) (i : Nat) :
    Watched × OpenFileInfo × Rc :=
  (openFileAddEvent v of w i).call (updateFile now of w.cache i)

/-- `create` -/
def createWatched (now : Int) (sys : System) (v : Vnode) (key : Nat) (name : List UInt8) (of : OpenFileInfo)
    (w : Watched) : Watched × OpenFileInfo × Rc :=
  let w := if w.cache.max ≤ w.cache.current then expireWatchedFiles now 0 w else w
  match sys.alloc with
  | none => w.call (failedFile of none w.cache)
  | some memory =>
    let i := w.cache.next
    let file := { memory with
      key := key
      name := name
      uses := 1
      count := 0 }
    addWatched now v of { w with
      cache := { w.cache.setFile i file with
        live := i :: w.cache.live
        next := i + 1 }.rbtreeInsert i
      event := Function.update w.event i false
      useEvent := Function.update w.useEvent i false } i

def retestWatched (now : Int) (sys : System) (v : Vnode) (key : Nat) (name : List UInt8) (of : OpenFileInfo)
    (w : Watched) (i : Nat) : Watched × OpenFileInfo × Rc :=
  let file := w.cache.files i
  let (c, of, rc) := openAndStatFile sys { of with
    testDir := of.testDir || file.isDir
    fd := file.fd
    uniq := file.uniq } w.cache
  let w := { w with cache := c }
  if notCached of rc then w.call (failedFile of (some i) c)
  else if updates of file then
    if of.isDir = false ∧ of.err = 0 then
      if file.isDir = true ∨ file.err ≠ 0 then addWatched now v of w i
      else
        { w with useEvent := if w.event i then Function.update w.useEvent i true else w.useEvent }.call
          (updateFile now { of with isDirectio := file.isDirectio } c i)
    else w.call (updateFile now of c i)
  else if file.count = 0 then
    addWatched now v of { openFileDelEvent w i with cache := c.closeFile file.fd } i
  else
    createWatched now sys v key name of
      { w with cache := (c.rbtreeDelete i).setFile i { file with close := true } }

/-- `ngx_open_cached_file` -/
def openWatchedFile (now : Int) (sys : System) (v : Vnode) (key : Nat) (name : List UInt8) (of : OpenFileInfo)
    (w : Watched) : Watched × OpenFileInfo × Rc :=
  let of := { of with
    fd := none
    err := 0 }
  if sys.cleanupAdd = false then (w, of, .error)
  else
    match openFileLookup key name w.cache with
    | none =>
      let (c, of, rc) := openAndStatFile sys of w.cache
      let w := { w with cache := c }
      if notCached of rc then w.call (failedFile of none c)
      else createWatched now sys v key (cString name) of w
    | some i =>
      let file := { w.cache.files i with uses := (w.cache.files i).uses + 1 }
      let found := { w with cache := (w.cache.setFile i file).queueRemove i }
      if file.fd = none ∧ file.err = 0 ∧ file.isDir = false then
        let (c, of, rc) := openAndStatFile sys of found.cache
        let found := { found with cache := c }
        if notCached of rc then found.call (failedFile of (some i) c) else addWatched now v of found i
      else if w.useEvent i = true ∨
          w.event i = false ∧ (of.uniq = 0 ∨ of.uniq = file.uniq) ∧ now - file.created < of.valid then
        let of := cachedInfo of file
        if file.err = 0 ∧ file.isDir = false then
          let c := found.cache.setFile i { file with count := file.count + 1 }
          (openFileAddEvent v of { found with cache := c } i).call (foundFile now of c i)
        else found.call (foundFile now of found.cache i)
      else retestWatched now sys v key (cString name) of found i

/-- `ngx_open_file_cache_remove`, for an event that has been delivered. -/
def openFileCacheRemove (now : Int) (w : Watched) (i : Nat) : Watched :=
  let c := (w.cache.queueRemove i).rbtreeDelete i
  closeWatchedFile now 0
    { w with
      cache := c.setFile i { c.files i with close := true }
      event := Function.update w.event i false
      useEvent := Function.update w.useEvent i false } i

/-- A call, a cleanup of a pool, or a vnode event of an entry. -/
inductive VnodeEvent where
  | openFile (now : Int) (sys : System) (v : Vnode) (name : List UInt8) (of : OpenFileInfo)
  | cleanup (now : Int) (turn : Nat)
  | vnode (now : Int) (i : Nat)

def stepWatched (crc32 : List UInt8 → Nat) (w : Watched) : VnodeEvent → Watched
  | .openFile now sys v name of => (openWatchedFile now sys v (crc32 name) name of w).1
  | .cleanup now turn =>
    match w.cache.cleanups[turn]? with
    | none => w
    | some cln =>
      watchedCleanup now cln { w with cache := { w.cache with cleanups := w.cache.cleanups.eraseIdx turn } }
  | .vnode now i =>
    if i ∈ w.armed then openFileCacheRemove now { w with armed := w.armed.erase i } i else w

def runWatched (crc32 : List UInt8 → Nat) (w : Watched) (events : List VnodeEvent) : Watched :=
  events.foldl (stepWatched crc32) w

end NgxFormal.Core.OpenFileCache

/-! The entries with an event are in the tree, as open files. -/

namespace NgxFormal.Core.OpenFileCache

section Guard

variable {w : Watched} {c c' : Cache} {i j : Nat} {of : OpenFileInfo} {v : Vnode} {now : Int}

/-- An entry in the tree that has a file. -/
def Opened (c : Cache) (j : Nat) : Prop := j ∈ c.rbtree ∧ (c.files j).plain ∧ (c.files j).fd.isSome

/-- The events that can be delivered are those of the entries, and their entries, but for one, are in
the tree. -/
structure Guard (w : Watched) (but : Option Nat) : Prop where
  nodup : w.armed.Nodup
  armed : ∀ j, j ∈ w.armed ↔ w.event j = true
  opened : ∀ j, but ≠ some j → w.event j = true → Opened w.cache j

/-- Nothing is different for the other entries. -/
def Frame (i : Nat) (c c' : Cache) : Prop :=
  ∀ j, j ≠ i → c'.files j = c.files j ∧ (j ∈ c.rbtree → j ∈ c'.rbtree)

theorem Frame.trans {c'' : Cache} (first : Frame i c c') (second : Frame i c' c'') : Frame i c c'' :=
  fun j other => ⟨(second j other).1.trans (first j other).1, fun mem => (second j other).2 ((first j other).2 mem)⟩

theorem frame_refl (i : Nat) (c : Cache) : Frame i c c := fun _ _ => ⟨rfl, fun mem => mem⟩

theorem frame_setFile (i : Nat) (c : Cache) (file : File) : Frame i c (c.setFile i file) :=
  fun _ other => ⟨setFile_files_other c file other, fun mem => mem⟩

theorem Opened.setFile (opened : Opened c i) (file : File) (plain : (c.files i).plain → file.plain)
    (fd : file.fd = (c.files i).fd) : Opened (c.setFile i file) i := by
  obtain ⟨mem, isPlain, has⟩ := opened
  refine ⟨mem, ?_⟩
  rw [setFile_files_self, fd]
  exact ⟨plain isPlain, has⟩

theorem frame_rbtreeDelete (i : Nat) (c : Cache) : Frame i c (c.rbtreeDelete i) :=
  fun _ other => ⟨rfl, fun mem => (List.mem_erase_of_ne other).2 mem⟩

theorem closeFile_same (c : Cache) (fd : Option Nat) :
    (c.closeFile fd).files = c.files ∧ (c.closeFile fd).rbtree = c.rbtree := by
  cases fd <;> exact ⟨rfl, rfl⟩

theorem frame_closeFile (i : Nat) (c : Cache) (fd : Option Nat) : Frame i c (c.closeFile fd) := by
  obtain ⟨files, rbtree⟩ := closeFile_same c fd
  intro j _
  rw [files, rbtree]
  exact ⟨rfl, fun mem => mem⟩

theorem frame_closeUnused (i : Nat) (c : Cache) : Frame i c (closeUnused c i) := by
  have closed := (frame_closeFile i c (c.files i).fd).trans (frame_setFile i _ { c.files i with fd := none })
  unfold closeUnused
  dsimp only
  split
  · exact frame_refl i c
  split
  · exact closed
  · exact closed

theorem Guard.but (guard : Guard w none) (i : Nat) : Guard w (some i) :=
  ⟨guard.nodup, guard.armed, fun j _ => guard.opened j (by simp)⟩

theorem Guard.whole (guard : Guard w (some i)) (own : w.event i = true → Opened w.cache i) : Guard w none where
  nodup := guard.nodup
  armed := guard.armed
  opened j _ event := by
    by_cases same : i = j
    · subst same
      exact own event
    · exact guard.opened j (fun eq => same (Option.some.inj eq)) event

theorem Guard.frame (guard : Guard w (some i)) (frame : Frame i w.cache c) :
    Guard { w with cache := c } (some i) where
  nodup := guard.nodup
  armed := guard.armed
  opened j other event := by
    obtain ⟨files, mem⟩ := frame j fun same => other (congrArg some same.symm)
    obtain ⟨inTree, has⟩ := guard.opened j other event
    exact ⟨mem inTree, by
      dsimp only
      rw [files]
      exact has⟩

theorem openFileAddEvent_event (v : Vnode) (of : OpenFileInfo) (w : Watched) (i : Nat)
    (event : (openFileAddEvent v of w i).event i = true) : w.event i = true ∨ of.fd.isSome := by
  rw [openFileAddEvent] at event
  split at event
  · exact Or.inl event
  · rename_i adds
    exact Or.inr (Option.isSome_iff_ne_none.mpr fun none_ => adds (Or.inr (Or.inr (Or.inr (Or.inl none_)))))

theorem openFileAddEvent_cache (v : Vnode) (of : OpenFileInfo) (w : Watched) (i : Nat) :
    (openFileAddEvent v of w i).cache = w.cache := by
  rw [openFileAddEvent]
  split <;> rfl

theorem Guard.add (guard : Guard w (some i)) (v : Vnode) (of : OpenFileInfo) :
    Guard (openFileAddEvent v of w i) (some i) := by
  rw [openFileAddEvent]
  split
  · exact guard
  · rename_i adds
    have before : w.event i = false := Bool.eq_false_iff.mpr fun event => adds (Or.inr (Or.inr (Or.inl event)))
    have absent : i ∉ w.armed := fun mem => by
      rw [guard.armed, before] at mem
      cases mem
    have others (j : Nat) (other : j ≠ i) : Function.update w.event i v.added j = w.event j :=
      Function.update_of_ne other _ _
    refine ⟨?_, fun j => ?_, fun j other event => ?_⟩
    · cases v.added with
      | true => exact List.nodup_cons.2 ⟨absent, guard.nodup⟩
      | false => exact guard.nodup
    · by_cases same : j = i
      · subst same
        dsimp only
        rw [Function.update_self]
        cases v.added with
        | true => exact ⟨fun _ => rfl, fun _ => List.mem_cons_self⟩
        | false => exact ⟨fun mem => absurd mem absent, fun never => by cases never⟩
      · dsimp only
        rw [others j same, ← guard.armed]
        cases v.added with
        | true => exact List.mem_cons.trans (or_iff_right same)
        | false => exact Iff.rfl
    · dsimp only at event
      rw [others j fun same => other (congrArg some same.symm)] at event
      exact guard.opened j other event

theorem Guard.unwatched (guard : Guard w (some i)) (useEvent : Nat → Bool) :
    Guard { w with armed := w.armed.erase i, event := Function.update w.event i false, useEvent := useEvent } none := by
  have others (j : Nat) (other : j ≠ i) : Function.update w.event i false j = w.event j :=
    Function.update_of_ne other _ _
  refine ⟨guard.nodup.erase i, fun j => ?_, fun j _ event => ?_⟩
  · by_cases same : j = i
    · subst same
      dsimp only
      rw [Function.update_self]
      exact ⟨fun mem => absurd rfl (guard.nodup.mem_erase_iff.1 mem).1, fun never => by cases never⟩
    · dsimp only
      rw [others j same, List.mem_erase_of_ne same]
      exact guard.armed j
  · dsimp only at event
    have other : j ≠ i := by
      intro same
      rw [same, Function.update_self] at event
      cases event
    rw [others j other] at event
    exact guard.opened j (fun same => other (Option.some.inj same).symm) event

theorem Guard.del (guard : Guard w (some i)) : Guard (openFileDelEvent w i) none := by
  rw [openFileDelEvent]
  split
  · rename_i no
    exact guard.whole fun event => by
      rw [no] at event
      cases event
  · exact guard.unwatched _

theorem openFileDelEvent_event (w : Watched) (i : Nat) : (openFileDelEvent w i).event i = false := by
  rw [openFileDelEvent]
  split
  · assumption
  · exact Function.update_self _ _ _

/-- An entry loses its event, and then the cache is another one for it. -/
theorem Guard.drop (guard : Guard w (some i)) (frame : Frame i w.cache c) :
    Guard { openFileDelEvent w i with cache := c } none := by
  have cache : (openFileDelEvent w i).cache = w.cache := by
    rw [openFileDelEvent]
    split <;> rfl
  refine ((guard.del.but i).frame (by rw [cache]; exact frame)).whole fun event => ?_
  dsimp only at event
  rw [openFileDelEvent_event] at event
  cases event

/-- `ngx_close_cached_file` -/
theorem Guard.close (guard : Guard w (some i)) (minUses : Nat)
    (own : (w.cache.files i).close = false → w.event i = true → Opened w.cache i) :
    Guard (closeWatchedFile now minUses w i) none := by
  unfold closeWatchedFile
  dsimp only
  split
  · exact guard.drop (frame_closeUnused i _)
  · rename_i close
    have touched : Frame i w.cache (((w.cache.setFile i { w.cache.files i with accessed := now }).queueRemove
        i).queueInsertHead i) := frame_setFile i _ _
    split
    · refine (guard.frame touched).whole fun event => ?_
      exact (own (Bool.eq_false_iff.mpr close) event).setFile { w.cache.files i with accessed := now } id rfl
    · exact guard.drop (touched.trans (frame_closeUnused i _))

/-- What happens to the cache is what happens without events. -/
theorem closeWatchedFile_cache (now : Int) (minUses : Nat) (w : Watched) (i : Nat) :
    (closeWatchedFile now minUses w i).cache = closeCachedFile now minUses w.cache i := by
  unfold closeWatchedFile closeCachedFile
  dsimp only
  split_ifs <;> rfl

theorem expireLastWatched_cache (now : Int) (w : Watched) (i : Nat) :
    (expireLastWatched now w i).cache = expireLast now w.cache i := by
  unfold expireLastWatched expireLast
  dsimp only
  split
  · exact closeWatchedFile_cache now 0 _ i
  · rfl

theorem expireWatchedTurns_cache (now : Int) (turns : Nat) (force : Bool) (w : Watched) :
    (expireWatchedTurns now turns force w).cache = expireTurns now turns force w.cache := by
  induction turns generalizing force w with
  | zero => rfl
  | succ turns ih =>
    rw [expireWatchedTurns, expireTurns]
    cases w.cache.expireQueue.getLast? with
    | none => rfl
    | some i =>
      dsimp only
      split
      · rfl
      · rw [ih, expireLastWatched_cache]

theorem Guard.expire (guard : Guard w none) (turns : Nat) (force : Bool) :
    Guard (expireWatchedTurns now turns force w) none := by
  induction turns generalizing force w with
  | zero => exact guard
  | succ turns ih =>
    rw [expireWatchedTurns]
    cases w.cache.expireQueue.getLast? with
    | none => exact guard
    | some i =>
      dsimp only
      split
      · exact guard
      · apply ih
        have out : Frame i w.cache ((w.cache.queueRemove i).rbtreeDelete i) := frame_rbtreeDelete i _
        unfold expireLastWatched
        dsimp only
        split
        · refine ((guard.but i).frame (out.trans (frame_setFile i _ _))).close 0 fun close => ?_
          dsimp only at close
          rw [setFile_files_self] at close
          cases close
        · rename_i other
          have freed : Frame i w.cache (((w.cache.queueRemove i).rbtreeDelete i).free i) := out
          exact ((guard.but i).frame freed).whole fun event =>
            absurd (guard.opened i (by simp) event).2.1 other

theorem expireWatchedFiles_cache (now : Int) (n : Nat) (w : Watched) :
    (expireWatchedFiles now n w).cache = expireOldCachedFiles now n w.cache :=
  expireWatchedTurns_cache now _ _ w

theorem Guard.cleanup (guard : Guard w none) (cln : Cleanup) : Guard (watchedCleanup now cln w) none := by
  refine Guard.expire (Guard.close ((guard.but cln.file).frame (frame_setFile _ _ _)) _ fun _ event => ?_) _ _
  exact (guard.opened _ (by simp) event).setFile _ id rfl

theorem watchedCleanup_cache (now : Int) (cln : Cleanup) (w : Watched) :
    (watchedCleanup now cln w).cache = openFileCleanup now cln w.cache := by
  rw [watchedCleanup, openFileCleanup, expireWatchedFiles_cache, closeWatchedFile_cache]

/-- `update` changes one entry. -/
theorem frame_foundFile (now : Int) (of : OpenFileInfo) (c : Cache) (i : Nat) :
    Frame i c (foundFile now of c i).1 ∧
      ((foundFile now of c i).1.files i = { c.files i with accessed := now } ∧
        (foundFile now of c i).1.rbtree = c.rbtree) := by
  unfold foundFile
  dsimp only
  split_ifs <;> exact ⟨frame_setFile i c _, setFile_files_self c i _, rfl⟩

theorem updateFile_opened (now : Int) {of : OpenFileInfo} (mem : i ∈ c.rbtree) (has : of.fd.isSome)
    (file : of.err = 0 ∧ of.isDir = false) : Opened (updateFile now of c i).1 i := by
  unfold updateFile
  dsimp only
  rw [if_pos file.1]
  obtain ⟨_, own, rbtree⟩ := frame_foundFile now of (c.setFile i _) i
  refine ⟨by rw [rbtree]; exact mem, ?_⟩
  rw [own, setFile_files_self]
  exact ⟨file, has⟩

theorem frame_updateFile (now : Int) (of : OpenFileInfo) (c : Cache) (i : Nat) :
    Frame i c (updateFile now of c i).1 :=
  (frame_setFile i c _).trans (frame_foundFile now of _ i).1

theorem Guard.update (guard : Guard w (some i)) (now : Int) {of : OpenFileInfo} (mem : i ∈ w.cache.rbtree)
    (file : of.fd.isSome → of.err = 0 ∧ of.isDir = false) (event : w.event i = true → of.fd.isSome) :
    Guard (w.call (updateFile now of w.cache i)).1 none :=
  (guard.frame (frame_updateFile now of w.cache i)).whole fun is =>
    updateFile_opened now mem (event is) (file (event is))

theorem Guard.addWatched (guard : Guard w (some i)) (now : Int) (v : Vnode) {of : OpenFileInfo}
    (mem : i ∈ w.cache.rbtree) (file : of.fd.isSome → of.err = 0 ∧ of.isDir = false)
    (event : w.event i = true → of.fd.isSome) : Guard (addWatched now v of w i).1 none := by
  have cache := openFileAddEvent_cache v of w i
  have added := (guard.add v of).update now (by rw [cache]; exact mem) file fun is =>
    (openFileAddEvent_event v of w i is).elim event id
  rw [cache] at added
  exact added

theorem Guard.failed (guard : Guard w (some i)) (of : OpenFileInfo) (event : w.event i = false) :
    Guard (w.call (failedFile of (some i) w.cache)).1 none := by
  refine (guard.frame ?_).whole fun is => by
    have is' : w.event i = true := is
    rw [event] at is'
    cases is'
  unfold failedFile
  dsimp only
  refine (frame_rbtreeDelete i w.cache).trans (Frame.trans ?_ (frame_closeFile i _ of.fd))
  split
  · exact frame_closeFile i _ _
  · exact frame_setFile i _ _

theorem createWatched_cache (now : Int) (sys : System) (v : Vnode) (key : Nat) (name : List UInt8)
    (of : OpenFileInfo) (w : Watched) :
    (createWatched now sys v key name of w).1.cache = (createFile now sys key name of w.cache).1 := by
  have expired : (if w.cache.max ≤ w.cache.current then expireWatchedFiles now 0 w else w).cache =
      if w.cache.max ≤ w.cache.current then expireOldCachedFiles now 0 w.cache else w.cache := by
    split
    · exact expireWatchedFiles_cache now 0 w
    · rfl
  unfold createWatched createFile
  dsimp only
  rw [← expired]
  cases sys.alloc <;> rfl

theorem Guard.create (guard : Guard w none) (inv : Inv [] w.cache) (now : Int) (sys : System) (v : Vnode)
    (key : Nat) (name : List UInt8) {of : OpenFileInfo} (has : of.fd.isSome → of.err = 0 ∧ of.isDir = false) :
    Guard (createWatched now sys v key name of w).1 none := by
  have expired : ∃ u, (if w.cache.max ≤ w.cache.current then expireWatchedFiles now 0 w else w) = u ∧
      Guard u none ∧ Inv [] u.cache := by
    refine ⟨_, rfl, ?_⟩
    split
    · rw [expireWatchedFiles_cache]
      exact ⟨guard.expire _ _, (expireOldCachedFiles_inv now 0 inv).1⟩
    · exact ⟨guard, inv⟩
  obtain ⟨u, same, guard, inv⟩ := expired
  unfold createWatched
  dsimp only
  rw [same]
  have before : u.event u.cache.next = false := Bool.eq_false_iff.mpr fun event =>
    absurd (inv.below _ (inv.tree _ (guard.opened _ (by simp) event).1)) (Nat.lt_irrefl _)
  have absent : u.cache.next ∉ u.armed := fun mem => by
    rw [guard.armed, before] at mem
    cases mem
  cases sys.alloc with
  | none =>
    refine ((guard.but 0).frame (frame_closeFile 0 u.cache of.fd)).whole fun event => ?_
    obtain ⟨files, rbtree⟩ := closeFile_same u.cache of.fd
    obtain ⟨mem, has⟩ := guard.opened 0 (by simp) event
    exact ⟨by rw [rbtree]; exact mem, by dsimp only; rw [files]; exact has⟩
  | some memory =>
    have fresh := (guard.but u.cache.next).unwatched (Function.update u.useEvent u.cache.next false)
    rw [List.erase_of_not_mem absent] at fresh
    let file : File := { memory with key := key, name := name, uses := 1, count := 0 }
    have put : Frame u.cache.next u.cache ({ u.cache.setFile u.cache.next file with
        live := u.cache.next :: u.cache.live
        next := u.cache.next + 1 }.rbtreeInsert u.cache.next) := by
      intro j other
      exact ⟨setFile_files_other _ _ other, fun mem => List.mem_cons_of_mem _ mem⟩
    refine Guard.addWatched ((fresh.but u.cache.next).frame put) now v List.mem_cons_self has fun event => ?_
    dsimp only at event
    rw [Function.update_self] at event
    cases event

end Guard

section Calls

variable {w : Watched} {c : Cache} {i : Nat} {of : OpenFileInfo} {sys : System}

/-- What a retest asks. -/
def asked (of : OpenFileInfo) (file : File) : OpenFileInfo :=
  { of with
    testDir := of.testDir || file.isDir
    fd := file.fd
    uniq := file.uniq }

/-- A retest after which an entry in use is not in the tree any more, or one that fails. -/
def Detaches (sys : System) (of : OpenFileInfo) (c : Cache) (i : Nat) : Prop :=
  let r := openAndStatFile sys (asked of (c.files i)) c
  notCached r.2.1 r.2.2 ∨ ¬updates r.2.1 (c.files i) ∧ (c.files i).count ≠ 0

theorem retestWatched_cache (now : Int) (sys : System) (v : Vnode) (key : Nat) (name : List UInt8)
    (of : OpenFileInfo) (w : Watched) (i : Nat) :
    (retestWatched now sys v key name of w i).1.cache = (retestFile now sys key name of w.cache i).1 := by
  unfold retestWatched retestFile
  dsimp only
  generalize openAndStatFile sys _ w.cache = r
  obtain ⟨c, found, rc⟩ := r
  dsimp only
  by_cases lost : notCached found rc
  · rw [if_pos lost, if_pos lost]
    rfl
  rw [if_neg lost, if_neg lost]
  by_cases same : updates found (w.cache.files i)
  · rw [if_pos same, if_pos same]
    by_cases file : found.isDir = false ∧ found.err = 0
    · rw [if_pos file]
      by_cases other : (w.cache.files i).isDir = true ∨ (w.cache.files i).err ≠ 0
      · rw [if_pos other, if_neg fun all => all.2.2 other]
        rfl
      · have all : found.isDir = false ∧ found.err = 0 ∧
            ¬((w.cache.files i).isDir = true ∨ (w.cache.files i).err ≠ 0) := ⟨file.1, file.2, other⟩
        rw [if_neg other, if_pos all]
        rfl
    · rw [if_neg file, if_neg fun all => file ⟨all.1, all.2.1⟩]
      rfl
  rw [if_neg same, if_neg same]
  split
  · rfl
  · exact createWatched_cache now sys v key name found _

theorem Guard.fds (guard : Guard w none) (fds : List Nat) :
    Guard { w with cache := { w.cache with fds := fds } } none :=
  ⟨guard.nodup, guard.armed, guard.opened⟩

theorem Answer.plain {out : List Nat} {old : Option Nat} {uniq : Nat} {c' : Cache}
    (answer : Answer out old uniq c c' of) (has : of.fd.isSome) : of.err = 0 ∧ of.isDir = false := by
  by_contra other
  rw [answer.none_ other] at has
  cases has

theorem Guard.retest (guard : Guard w none) (inv : Inv [i] w.cache) (now : Int) (fresh : Fresh sys w.cache)
    (err : of.err = 0) (apart : Apart sys { of with fd := (w.cache.files i).fd, uniq := (w.cache.files i).uniq })
    (v : Vnode) (key : Nat) (name : List UInt8) (kept : w.event i = true → ¬Detaches sys of w.cache i) :
    Guard (retestWatched now sys v key name of w i).1 none := by
  have inTree : i ∈ w.cache.rbtree := inv.queue.subset List.mem_cons_self
  have plain (event : w.event i = true) := (guard.opened i (by simp) event).2.1
  have answered : Answered [i] (w.cache.files i).fd (w.cache.files i).uniq w.cache
      (openAndStatFile sys (asked of (w.cache.files i)) w.cache) :=
    @openAndStatFile_answered sys (asked of (w.cache.files i)) w.cache [i] inv fresh err apart
  unfold Detaches at kept
  unfold asked at kept answered
  unfold retestWatched
  dsimp only at kept ⊢
  generalize openAndStatFile sys _ w.cache = r at kept answered ⊢
  obtain ⟨c', found, rc⟩ := r
  dsimp only at kept ⊢
  split
  · rename_i lost
    obtain ⟨rfl, _⟩ := answered.failed lost
    exact (guard.but i).failed found (Bool.eq_false_iff.mpr fun event => kept event (Or.inl lost))
  · rename_i stays
    have answer := answered.cached stays
    have file := answer.plain
    obtain ⟨⟨fds, rfl⟩, inv', some_, _, _⟩ := answer
    have watched := (guard.fds fds).but i
    split
    · rename_i same
      split
      · rename_i isFile
        have has := some_ isFile.2 isFile.1
        split
        · exact watched.addWatched now v inTree file fun _ => has
        · have used : Guard { w with
              cache := { w.cache with fds := fds }
              useEvent := if w.event i then Function.update w.useEvent i true else w.useEvent } (some i) :=
            ⟨watched.nodup, watched.armed, watched.opened⟩
          exact @Guard.update _ i used now { found with isDirectio := (w.cache.files i).isDirectio } inTree file
            fun _ => has
      · rename_i other
        refine watched.update now inTree file fun event => ?_
        obtain ⟨noErr, noDir⟩ := plain event
        unfold updates at same
        split at same
        · simp [noErr, noDir] at same
        · rename_i notDir
          split at same
          · rename_i ok
            exact absurd ⟨Bool.eq_false_iff.mpr notDir, ok⟩ other
          · simp [noErr, noDir] at same
    · rename_i changes
      split
      · refine Guard.addWatched ((Guard.drop watched ?_).but i) now v ?_ file fun event => ?_
        · exact frame_closeFile i { w.cache with fds := fds } (w.cache.files i).fd
        · dsimp only
          rw [(closeFile_same { w.cache with fds := fds } (w.cache.files i).fd).2]
          exact inTree
        · dsimp only at event
          rw [openFileDelEvent_event] at event
          cases event
      · rename_i used
        have event : w.event i = false := Bool.eq_false_iff.mpr fun event => kept event (Or.inr ⟨changes, used⟩)
        have gone : Frame i w.cache ((({ w.cache with fds := fds } : Cache).rbtreeDelete i).setFile i
            { w.cache.files i with close := true }) :=
          (frame_rbtreeDelete i { w.cache with fds := fds }).trans (frame_setFile i _ _)
        refine Guard.create (((guard.but i).frame gone).whole fun is => ?_) (inv'.detach used) now sys v key name file
        have is' : w.event i = true := is
        rw [event] at is'
        cases is'

/-- The cache behind a lookup that finds an entry. -/
def Cache.lookedUp (c : Cache) (i : Nat) : Cache :=
  (c.setFile i { c.files i with uses := (c.files i).uses + 1 }).queueRemove i

/-- What a call is given: the count does not wrap, a retest does not give a directory with the number of
the open file, and it does not take an entry with an event out of the tree. -/
structure Safe (sys : System) (of : OpenFileInfo) (w : Watched) (i : Nat) : Prop where
  room : (w.cache.files i).count.toNat + 1 < 2 ^ 24
  apart : ∀ fi, sys.fileInfo = .ok fi → (w.cache.files i).fd.isSome → (w.cache.files i).uniq = fi.uniq →
    fi.isDir = false
  kept : w.event i = true → w.useEvent i = false →
    ¬Detaches sys { of with fd := none, err := 0 } (w.cache.lookedUp i) i

theorem openWatchedFile_keeps (now : Int) (v : Vnode) (key : Nat) (name : List UInt8) (inv : Inv [] w.cache)
    (guard : Guard w none) (fresh : Fresh sys w.cache)
    (safe : ∀ i, openFileLookup key name w.cache = some i → Safe sys of w i) :
    Inv [] (openWatchedFile now sys v key name of w).1.cache ∧
      Guard (openWatchedFile now sys v key name of w).1 none := by
  unfold openWatchedFile
  dsimp only
  split
  · exact ⟨inv, guard⟩
  cases found : openFileLookup key name w.cache with
  | none =>
    have apart : Apart sys { of with fd := none, err := 0 } := fun fi _ has => by cases has
    have answered := @openAndStatFile_answered sys { of with fd := none, err := 0 } w.cache [] inv fresh rfl apart
    dsimp only
    generalize openAndStatFile sys { of with fd := none, err := 0 } w.cache = r at answered
    obtain ⟨c', of', rc⟩ := r
    dsimp only
    split
    · rename_i lost
      obtain ⟨rfl, none_⟩ := answered.failed lost
      dsimp only at none_
      have same : (failedFile of' none w.cache).1 = w.cache := by
        rw [failedFile, none_]
        rfl
      rw [Watched.call, same]
      exact ⟨inv, guard⟩
    · rename_i kept
      have answer := answered.cached kept
      obtain ⟨fds, rfl⟩ := answer.cache
      rw [createWatched_cache]
      refine ⟨createFile_inv now sys key _ answer.inv answer.some_ answer.none_ fun d has => ?_,
        (guard.fds fds).create answer.inv now sys v key _ answer.plain⟩
      rcases answer.fd d has with old | unowned
      · cases old.1
      · exact unowned
  | some i =>
    have mem : i ∈ w.cache.rbtree := List.mem_of_find?_eq_some found
    obtain ⟨room, apart, kept⟩ := safe i found
    let file : File := { w.cache.files i with uses := (w.cache.files i).uses + 1 }
    let u : Watched := { w with cache := (w.cache.setFile i file).queueRemove i }
    have taken : Inv [i] u.cache := inv.taken mem
    have own : u.cache.files i = file := setFile_files_self w.cache i file
    have frame : Frame i w.cache u.cache := frame_setFile i w.cache file
    have watched : Guard u none := ((guard.but i).frame frame).whole fun event =>
      (guard.opened i (by simp) event).setFile file id rfl
    have open_ (event : w.event i = true) : Opened u.cache i := watched.opened i (by simp) event
    dsimp only
    split
    · rename_i closed
      have event : w.event i = false := Bool.eq_false_iff.mpr fun event => by
        have has := (open_ event).2.2
        rw [own, show file.fd = none from closed.1] at has
        cases has
      have reopened := @reopen_inv { of with fd := none, err := 0 } u.cache i now sys taken fresh rfl rfl
        (by rw [own]; exact closed.1)
      have apart' : Apart sys { of with fd := none, err := 0 } := fun fi _ has => by cases has
      have answered := @openAndStatFile_answered sys { of with fd := none, err := 0 } u.cache [i] taken fresh rfl apart'
      change Inv [] (if notCached (openAndStatFile sys { of with fd := none, err := 0 } u.cache).2.1 _ then _ else _ :
        Watched × OpenFileInfo × Rc).1.cache ∧ _
      generalize openAndStatFile sys { of with fd := none, err := 0 } u.cache = r at answered reopened
      obtain ⟨c', found', rc⟩ := r
      have reopened := reopened _ rfl
      dsimp only at reopened ⊢
      split
      · rename_i lost
        rw [if_pos lost] at reopened
        obtain ⟨rfl, _⟩ := answered.failed lost
        exact ⟨reopened, (watched.but i).failed found' event⟩
      · rename_i stays
        rw [if_neg stays] at reopened
        have answer' := answered.cached stays
        obtain ⟨fds, rfl⟩ := answer'.cache
        refine ⟨reopened, ((watched.fds fds).but i).addWatched now v mem answer'.plain fun is => ?_⟩
        have is' : w.event i = true := is
        rw [event] at is'
        cases is'
    · rename_i has
      have counted := @cached_inv { of with fd := none, err := 0 } u.cache i now taken rfl
        (by rw [own]; exact has) (by rw [own]; exact room)
      rw [own] at counted
      split
      · split
        · rename_i plain
          rw [if_pos plain] at counted
          let counts : File := { file with count := file.count + 1 }
          have has' : file.fd.isSome :=
            Option.isSome_iff_ne_none.mpr fun none_ => has ⟨none_, plain.1, plain.2⟩
          have put : Guard { w with cache := u.cache.setFile i counts } (some i) :=
            (watched.but i).frame (frame_setFile i u.cache counts)
          have added := (put.add v (cachedInfo { of with fd := none, err := 0 } file)).frame (by
            rw [openFileAddEvent_cache]
            exact (frame_foundFile now (cachedInfo { of with fd := none, err := 0 } file)
              (u.cache.setFile i counts) i).1)
          refine ⟨counted, added.whole fun _ => ?_⟩
          obtain ⟨_, own', rbtree⟩ := frame_foundFile now (cachedInfo { of with fd := none, err := 0 } file)
            (u.cache.setFile i counts) i
          refine ⟨by dsimp only; rw [rbtree]; exact mem, ?_⟩
          dsimp only
          rw [own', setFile_files_self]
          exact ⟨plain, has'⟩
        · rename_i other
          rw [if_neg other] at counted
          refine ⟨counted, ((watched.but i).frame (frame_foundFile now _ u.cache i).1).whole fun event => ?_⟩
          have plain := (open_ event).2.1
          rw [own] at plain
          exact absurd plain other
      · rename_i stale
        have apart' : Apart sys { { of with fd := none, err := 0 } with
            fd := (u.cache.files i).fd, uniq := (u.cache.files i).uniq } := by
          rw [own]
          exact apart
        rw [retestWatched_cache]
        refine ⟨retestFile_inv now key _ taken fresh rfl apart' (by rw [own]; exact room),
          watched.retest taken now fresh rfl apart' v key _ fun event => ?_⟩
        have use : w.useEvent i = false := Bool.eq_false_iff.mpr fun use => stale (Or.inl use)
        exact kept event use

/-- An event takes an open entry out of the tree. -/
theorem openFileCacheRemove_keeps (now : Int) (inv : Inv [] w.cache) (guard : Guard w none)
    (event : w.event i = true) :
    Inv [] (openFileCacheRemove now { w with armed := w.armed.erase i } i).cache ∧
      Guard (openFileCacheRemove now { w with armed := w.armed.erase i } i) none := by
  obtain ⟨mem, plain, _⟩ := guard.opened i (by simp) event
  constructor
  · have removed := (expireLast_inv now inv (inv.queue.symm.subset mem)).1
    have plain' : (((w.cache.queueRemove i).rbtreeDelete i).files i).err = 0 ∧
        (((w.cache.queueRemove i).rbtreeDelete i).files i).isDir = false := plain
    unfold expireLast at removed
    dsimp only at removed
    rw [if_pos plain'] at removed
    rw [openFileCacheRemove, closeWatchedFile_cache]
    exact removed
  · have unwatched := (guard.but i).unwatched (Function.update w.useEvent i false)
    have out : Frame i w.cache (((w.cache.queueRemove i).rbtreeDelete i).setFile i
        { ((w.cache.queueRemove i).rbtreeDelete i).files i with close := true }) :=
      (frame_rbtreeDelete i (w.cache.queueRemove i)).trans (frame_setFile i _ _)
    refine ((unwatched.but i).frame out).close 0 fun close => ?_
    dsimp only at close
    rw [setFile_files_self] at close
    cases close

end Calls

section Runs

variable {crc32 : List UInt8 → Nat} {w : Watched}

/-- The kernel gives new descriptors, and the entry that a call finds is safe. -/
def Allowed (crc32 : List UInt8 → Nat) (w : Watched) : VnodeEvent → Prop
  | .openFile _ sys _ name of => Fresh sys w.cache ∧
      ∀ i, openFileLookup (crc32 name) name w.cache = some i → Safe sys of w i
  | .cleanup _ _ => True
  | .vnode _ _ => True

/-- The steps of a run meet a condition. -/
def AlongWatched (holds : Watched → VnodeEvent → Prop) (crc32 : List UInt8 → Nat) :
    Watched → List VnodeEvent → Prop
  | _, [] => True
  | w, event :: events => holds w event ∧ AlongWatched holds crc32 (stepWatched crc32 w event) events

theorem stepWatched_keeps {event : VnodeEvent} (inv : Inv [] w.cache) (guard : Guard w none)
    (allowed : Allowed crc32 w event) :
    Inv [] (stepWatched crc32 w event).cache ∧ Guard (stepWatched crc32 w event) none := by
  cases event with
  | openFile now sys v name of => exact openWatchedFile_keeps now v _ name inv guard allowed.1 allowed.2
  | cleanup now turn =>
    rw [stepWatched]
    split
    · exact ⟨inv, guard⟩
    · rename_i cln at_
      rw [watchedCleanup_cache]
      have given : Guard { w with cache := { w.cache with cleanups := w.cache.cleanups.eraseIdx turn } } none :=
        ⟨guard.nodup, guard.armed, guard.opened⟩
      exact ⟨openFileCleanup_inv now inv at_, given.cleanup cln⟩
  | vnode now i =>
    rw [stepWatched]
    split
    · rename_i delivered
      exact openFileCacheRemove_keeps now inv guard ((guard.armed i).1 delivered)
    · exact ⟨inv, guard⟩

theorem runWatched_keeps (events : List VnodeEvent) (inv : Inv [] w.cache) (guard : Guard w none)
    (allowed : AlongWatched (Allowed crc32) crc32 w events) :
    Inv [] (runWatched crc32 w events).cache ∧ Guard (runWatched crc32 w events) none := by
  induction events generalizing w with
  | nil => exact ⟨inv, guard⟩
  | cons event events ih =>
    have kept := stepWatched_keeps inv guard allowed.1
    exact ih kept.1 kept.2 allowed.2

/-- A cache without entries has no events. -/
def Watched.init (c : Cache) : Watched := ⟨c, fun _ => false, fun _ => false, []⟩

/-- What `ngx_open_file_cache_remove` is called with. -/
def Deliverable (w : Watched) : Prop :=
  ∀ i ∈ w.armed, i ∈ w.cache.rbtree ∧ i ∈ w.cache.expireQueue ∧ i ∈ w.cache.live

/-- In every run in which no entry with an event is taken out of the tree, the event is delivered to an
entry that is there. -/
theorem run_deliverable (crc32 : List UInt8 → Nat) (files : Nat → File) (fds : List Nat) (max : Nat)
    (inactive : Int) (events : List VnodeEvent)
    (allowed : AlongWatched (Allowed crc32) crc32 (.init (Cache.init files fds max inactive)) events) :
    Deliverable (runWatched crc32 (.init (Cache.init files fds max inactive)) events) := by
  have guard : Guard (.init (Cache.init files fds max inactive)) none :=
    ⟨List.nodup_nil, fun j => ⟨fun mem => absurd mem List.not_mem_nil, fun never => by cases never⟩,
      fun j _ event => by cases event⟩
  obtain ⟨inv, guard⟩ := runWatched_keeps events (init_inv files fds max inactive) guard allowed
  intro i mem
  have inTree := (guard.opened i (by simp) ((guard.armed i).1 mem)).1
  exact ⟨inTree, inv.queue.symm.subset inTree, inv.tree i inTree⟩

/-- Events are used. -/
def withVnode : Vnode := ⟨true, true, true⟩

/-- `a` is opened, and then it is changed. -/
def openedAndChanged : List VnodeEvent :=
  [.openFile 0 (answersWith (.ok (statOf 5 false)) 3 5) withVnode [97] askInfo, .vnode 1 0]

theorem openedAndChanged_allowed :
    AlongWatched (Allowed fun _ => 0) (fun _ => 0) (.init emptyCache) openedAndChanged :=
  ⟨⟨fun _ _ mem => absurd mem List.not_mem_nil, fun _ found => by cases found⟩, trivial, trivial⟩

theorem run_deliverable_changed :
    Deliverable (runWatched (fun _ => 0) (.init emptyCache) openedAndChanged) :=
  run_deliverable (fun _ => 0) (fun _ => emptyFile) [] 10 10 openedAndChanged openedAndChanged_allowed

/-- `a` is replaced while a request uses the old file, whose event stays. -/
def replacedInUse : List VnodeEvent :=
  [.openFile 0 (answersWith (.ok (statOf 5 false)) 3 5) withVnode [97] askInfo,
    .openFile 1 (answersWith (.ok (statOf 6 false)) 4 6) withVnode [97] askInfo]

/-- The event can be delivered to an entry that is not in the tree. -/
theorem run_undeliverable :
    ¬Deliverable (runWatched (fun _ => 0) (.init emptyCache) replacedInUse) := by
  intro deliverable
  have armed : 0 ∈ (runWatched (fun _ => 0) (.init emptyCache) replacedInUse).armed := by decide +kernel
  have out : 0 ∉ (runWatched (fun _ => 0) (.init emptyCache) replacedInUse).cache.rbtree := by decide +kernel
  exact out (deliverable 0 armed).1

end Runs

end NgxFormal.Core.OpenFileCache
