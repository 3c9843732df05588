import NgxFormal.Basic

/-! The open file cache, without vnode events. An entry is its number in the heap, the tree and the queue
are the lists of their entries, and a descriptor is a number; `none` is `NGX_INVALID_FILE`. -/

namespace NgxFormal.Core.OpenFileCache

/-- `ngx_cached_open_file_t` without its events. -/
structure File where
  key : Nat
  name : List UInt8
  created : Int
  accessed : Int
  fd : Option Nat
  uniq : Nat
  mtime : Int
  size : Int
  err : Nat
  uses : BitVec 32
  count : BitVec 24
  close : Bool
  isDir : Bool
  isFile : Bool
  isLink : Bool
  isExec : Bool
  isDirectio : Bool

/-- `ngx_file_info_t` -/
structure FileInfo where
  uniq : Nat
  mtime : Int
  size : Int
  fsSize : Int
  isDir : Bool
  isFile : Bool
  isLink : Bool
  isExec : Bool

/-- The call that failed. -/
inductive Failed where
  | openFile
  | fileInfo
  deriving DecidableEq, Repr

/-- `ngx_open_file_info_t` -/
structure OpenFileInfo where
  fd : Option Nat
  uniq : Nat
  mtime : Int
  size : Int
  fsSize : Int
  directio : Int
  err : Nat
  failed : Option Failed
  valid : Int
  minUses : Nat
  testDir : Bool
  errors : Bool
  isDir : Bool
  isFile : Bool
  isLink : Bool
  isExec : Bool
  isDirectio : Bool

/-- An error number. -/
abbrev Errno := { err : Nat // err ≠ 0 }

/-- What the system answers during a call: to `ngx_file_info`, to `ngx_open_file`, to `ngx_fd_info` on
the new descriptor and to `ngx_directio_on`, and whether the two allocations succeed, with what is in the
memory of the second. -/
structure System where
  fileInfo : Except Errno FileInfo
  openFile : Except Errno Nat
  fdInfo : Option FileInfo
  directioOn : Bool
  cleanupAdd : Bool
  alloc : Option File

/-- `ngx_open_file_cache_cleanup_t` -/
structure Cleanup where
  file : Nat
  minUses : Nat
  deriving DecidableEq, Repr

/-- `ngx_open_file_cache_t` with its entries (`live` are the allocated ones), the open descriptors, and
the pool cleanups still to run. `sound` is cleared by what must not happen: a queue or tree operation on
an entry that is not there, the close of a descriptor that is not open or that an entry with a positive
count has, and the release of an entry with a positive count. -/
structure Cache where
  files : Nat → File
  live : List Nat
  next : Nat
  rbtree : List Nat
  expireQueue : List Nat
  current : Nat
  max : Nat
  inactive : Int
  fds : List Nat
  cleanups : List Cleanup
  sound : Bool

inductive Rc where
  | ok
  | error
  deriving DecidableEq, Repr

/-- `ngx_open_file_cache_init` -/
def Cache.init (files : Nat → File) (fds : List Nat) (max : Nat) (inactive : Int) : Cache where
  files := files
  live := []
  next := 0
  rbtree := []
  expireQueue := []
  current := 0
  max := max
  inactive := inactive
  fds := fds
  cleanups := []
  sound := true

def Cache.setFile (c : Cache) (i : Nat) (file : File) : Cache := { c with files := Function.update c.files i file }

/-- `ngx_queue_remove` -/
def Cache.queueRemove (c : Cache) (i : Nat) : Cache :=
  { c with
    expireQueue := c.expireQueue.erase i
    sound := c.sound && c.expireQueue.contains i }

/-- `ngx_queue_insert_head` -/
def Cache.queueInsertHead (c : Cache) (i : Nat) : Cache :=
  { c with
    expireQueue := i :: c.expireQueue
    sound := c.sound && !c.expireQueue.contains i }

/-- `ngx_rbtree_delete` and `cache->current--` -/
def Cache.rbtreeDelete (c : Cache) (i : Nat) : Cache :=
  { c with
    rbtree := c.rbtree.erase i
    current := c.current - 1
    sound := c.sound && c.rbtree.contains i }

/-- `ngx_rbtree_insert` and `cache->current++` -/
def Cache.rbtreeInsert (c : Cache) (i : Nat) : Cache :=
  { c with
    rbtree := i :: c.rbtree
    current := c.current + 1
    sound := c.sound && !c.rbtree.contains i }

/-- An entry with a positive count has the descriptor. -/
def Cache.inUse (c : Cache) (fd : Nat) : Bool :=
  c.live.any fun i => (c.files i).fd == some fd && (c.files i).count != 0

/-- `ngx_close_file` -/
def Cache.closeFile (c : Cache) : Option Nat → Cache
  | none => c
  | some fd =>
    { c with
      fds := c.fds.erase fd
      sound := c.sound && c.fds.contains fd && !c.inUse fd }

/-- `ngx_free` -/
def Cache.free (c : Cache) (i : Nat) : Cache :=
  { c with
    live := c.live.erase i
    sound := c.sound && c.live.contains i && (c.files i).count == 0 }

/-- The end of `ngx_close_cached_file`. -/
def closeUnused (c : Cache) (i : Nat) : Cache :=
  let file := c.files i
  if file.count ≠ 0 then c
  else
    let c := (c.closeFile file.fd).setFile i { file with fd := none }
    if file.close then c.free i else c

/-- `ngx_close_cached_file` -/
def closeCachedFile (now : Int) (minUses : Nat) (c : Cache) (i : Nat) : Cache :=
  let file := c.files i
  if file.close then closeUnused c i
  else
    let c := ((c.setFile i { file with accessed := now }).queueRemove i).queueInsertHead i
    if minUses ≤ file.uses.toNat ∨ file.count ≠ 0 then c else closeUnused c i

/-- The least recently used entry leaves the cache. -/
def expireLast (now : Int) (c : Cache) (i : Nat) : Cache :=
  let c := (c.queueRemove i).rbtreeDelete i
  let file := c.files i
  if file.err = 0 ∧ file.isDir = false then closeCachedFile now 0 (c.setFile i { file with close := true }) i
  else c.free i

/-- The loop of `ngx_expire_old_cached_files`, with `turns` turns left; the first may be forced. -/
def expireTurns (now : Int) : Nat → Bool → Cache → Cache
  | 0, _, c => c
  | turns + 1, force, c =>
    match c.expireQueue.getLast? with
    | none => c
    | some i =>
      if force = false ∧ now - (c.files i).accessed ≤ c.inactive then c
      else expireTurns now turns false (expireLast now c i)

/-- `ngx_expire_old_cached_files` -/
def expireOldCachedFiles (now : Int) (n : Nat) (c : Cache) : Cache := expireTurns now (3 - n) (n == 0) c

/-- `ngx_open_file_cleanup` -/
def openFileCleanup (now : Int) (cln : Cleanup) (c : Cache) : Cache :=
  let file := c.files cln.file
  expireOldCachedFiles now 1
    (closeCachedFile now cln.minUses (c.setFile cln.file { file with count := file.count - 1 }) cln.file)

/-- What `done` copies. -/
def OpenFileInfo.stat (of : OpenFileInfo) (fi : FileInfo) : OpenFileInfo :=
  { of with
    uniq := fi.uniq
    mtime := fi.mtime
    size := fi.size
    fsSize := fi.fsSize
    isDir := fi.isDir
    isFile := fi.isFile
    isLink := fi.isLink
    isExec := fi.isExec }

/-- `failed` -/
def OpenFileInfo.fail (of : OpenFileInfo) (failed : Failed) (err : Errno) : OpenFileInfo :=
  { of with
    fd := none
    err := err.1
    failed := some failed }

/-- The file is opened. -/
def openAndStat (sys : System) (of : OpenFileInfo) (c : Cache) : Cache × OpenFileInfo × Rc :=
  match sys.openFile with
  | .error err => (c, of.fail .openFile err, .error)
  | .ok fd =>
    let c := { c with fds := fd :: c.fds }
    match sys.fdInfo with
    | none => (c.closeFile (some fd), { of with fd := none }, .error)
    | some fi =>
      if fi.isDir then (c.closeFile (some fd), { of with fd := none }.stat fi, .ok)
      else
        let directio := decide (of.directio ≤ fi.size) && sys.directioOn
        (c, { of with
          fd := some fd
          isDirectio := of.isDirectio || directio }.stat fi, .ok)

/-- `ngx_open_and_stat_file` -/
def openAndStatFile (sys : System) (of : OpenFileInfo) (c : Cache) : Cache × OpenFileInfo × Rc :=
  if of.fd.isSome ∨ of.testDir then
    match sys.fileInfo with
    | .error err => (c, of.fail .fileInfo err, .error)
    | .ok fi =>
      if (if of.fd.isSome then of.uniq = fi.uniq else fi.isDir = true) then (c, of.stat fi, .ok)
      else openAndStat sys of c
  else openAndStat sys of c

/-- `found`; `update` says whether a cleanup is set. -/
def foundFile (now : Int) (of : OpenFileInfo) (c : Cache) (i : Nat) : Cache × OpenFileInfo × Rc :=
  let c := (c.setFile i { c.files i with accessed := now }).queueInsertHead i
  if of.err = 0 then
    if of.isDir then (c, of, .ok) else ({ c with cleanups := ⟨i, of.minUses⟩ :: c.cleanups }, of, .ok)
  else (c, of, .error)

/-- `update` -/
def updateFile (now : Int) (of : OpenFileInfo) (c : Cache) (i : Nat) : Cache × OpenFileInfo × Rc :=
  let file := { c.files i with
    fd := of.fd
    err := of.err }
  let file :=
    if of.err = 0 then
      { file with
        uniq := of.uniq
        mtime := of.mtime
        size := of.size
        close := false
        isDir := of.isDir
        isFile := of.isFile
        isLink := of.isLink
        isExec := of.isExec
        isDirectio := of.isDirectio
        count := if of.isDir then file.count else file.count + 1 }
    else file
  foundFile now of (c.setFile i { file with created := now }) i

/-- `failed` -/
def failedFile (of : OpenFileInfo) (file : Option Nat) (c : Cache) : Cache × OpenFileInfo × Rc :=
  let c :=
    match file with
    | none => c
    | some i =>
      let c := c.rbtreeDelete i
      let file := c.files i
      if file.count = 0 then (c.closeFile file.fd).free i else c.setFile i { file with close := true }
  (c.closeFile of.fd, of, .error)

/-- `create` -/
def createFile (now : Int) (sys : System) (key : Nat) (name : List UInt8) (of : OpenFileInfo) (c : Cache) :
    Cache × OpenFileInfo × Rc :=
  let c := if c.max ≤ c.current then expireOldCachedFiles now 0 c else c
  match sys.alloc with
  | none => failedFile of none c
  | some memory =>
    let i := c.next
    let file := { memory with
      key := key
      name := name
      uses := 1
      count := 0 }
    updateFile now of (({ c.setFile i file with
      live := i :: c.live
      next := i + 1 }).rbtreeInsert i) i

/-- A string up to its NUL. -/
def cString (name : List UInt8) : List UInt8 := name.takeWhile (· ≠ 0)

/-- `ngx_open_file_lookup` -/
def openFileLookup (key : Nat) (name : List UInt8) (c : Cache) : Option Nat :=
  c.rbtree.find? fun i => (c.files i).key = key ∧ (c.files i).name = cString name

/-- What the error of `ngx_open_and_stat_file` is not cached for. -/
def notCached (of : OpenFileInfo) (rc : Rc) : Prop := rc ≠ .ok ∧ (of.err = 0 ∨ of.errors = false)

instance (of : OpenFileInfo) (rc : Rc) : Decidable (notCached of rc) := inferInstanceAs (Decidable (_ ∧ _))

def updates (of : OpenFileInfo) (file : File) : Prop :=
  if of.isDir then file.isDir = true ∨ file.err ≠ 0
  else if of.err = 0 then file.isDir = true ∨ file.err ≠ 0 ∨ of.uniq = file.uniq
  else file.err ≠ 0 ∨ file.isDir = true

instance (of : OpenFileInfo) (file : File) : Decidable (updates of file) := by
  unfold updates
  infer_instance

def cachedInfo (of : OpenFileInfo) (file : File) : OpenFileInfo :=
  if file.err = 0 then
    { of with
      fd := file.fd
      uniq := file.uniq
      mtime := file.mtime
      size := file.size
      isDir := file.isDir
      isFile := file.isFile
      isLink := file.isLink
      isExec := file.isExec
      isDirectio := file.isDirectio }
  else
    { of with
      err := file.err
      failed := some .openFile }

def retestFile (now : Int) (sys : System) (key : Nat) (name : List UInt8) (of : OpenFileInfo) (c : Cache) (i : Nat) :
    Cache × OpenFileInfo × Rc :=
  let file := c.files i
  let (c, of, rc) := openAndStatFile sys { of with
    testDir := of.testDir || file.isDir
    fd := file.fd
    uniq := file.uniq } c
  if notCached of rc then failedFile of (some i) c
  else if updates of file then
    let same := of.isDir = false ∧ of.err = 0 ∧ ¬(file.isDir = true ∨ file.err ≠ 0)
    updateFile now (if same then { of with isDirectio := file.isDirectio } else of) c i
  else if file.count = 0 then updateFile now of (c.closeFile file.fd) i
  else createFile now sys key name of ((c.rbtreeDelete i).setFile i { file with close := true })

/-- `ngx_open_cached_file`; `key` is `ngx_crc32_long` of the name. -/
def openCachedFile (now : Int) (sys : System) (key : Nat) (name : List UInt8) (of : OpenFileInfo) (c : Cache) :
    Cache × OpenFileInfo × Rc :=
  let of := { of with
    fd := none
    err := 0 }
  if sys.cleanupAdd = false then (c, of, .error)
  else
    match openFileLookup key name c with
    | none =>
      let (c, of, rc) := openAndStatFile sys of c
      if notCached of rc then failedFile of none c else createFile now sys key (cString name) of c
    | some i =>
      let file := { c.files i with uses := (c.files i).uses + 1 }
      let c := (c.setFile i file).queueRemove i
      if file.fd = none ∧ file.err = 0 ∧ file.isDir = false then
        let (c, of, rc) := openAndStatFile sys of c
        if notCached of rc then failedFile of (some i) c else updateFile now of c i
      else if (of.uniq = 0 ∨ of.uniq = file.uniq) ∧ now - file.created < of.valid then
        let counted := file.err = 0 ∧ file.isDir = false
        foundFile now (cachedInfo of file)
          (if counted then c.setFile i { file with count := file.count + 1 } else c) i
      else retestFile now sys key (cString name) of c i

/-- A call, or a cleanup of a pool. -/
inductive Event where
  | openFile (now : Int) (sys : System) (name : List UInt8) (of : OpenFileInfo)
  | cleanup (now : Int) (turn : Nat)

/-- `crc32` is `ngx_crc32_long`. -/
def step (crc32 : List UInt8 → Nat) (c : Cache) : Event → Cache
  | .openFile now sys name of => (openCachedFile now sys (crc32 name) name of c).1
  | .cleanup now turn =>
    match c.cleanups[turn]? with
    | none => c
    | some cln => openFileCleanup now cln { c with cleanups := c.cleanups.eraseIdx turn }

def run (crc32 : List UInt8 → Nat) (c : Cache) (events : List Event) : Cache := events.foldl (step crc32) c

end NgxFormal.Core.OpenFileCache
