import NgxFormal.Core.OpenFileCache
import Mathlib.Data.List.Nodup
import Mathlib.Data.List.Perm.Basic

/-! What holds of the entries of the open file cache, and the steps that concern a single entry. -/

namespace NgxFormal.Core.OpenFileCache

def File.plain (f : File) : Prop := f.err = 0 ∧ f.isDir = false

instance (f : File) : Decidable f.plain := inferInstanceAs (Decidable (_ ∧ _))

/-- The number of pool cleanups still to run for an entry. -/
def refs (c : Cache) (i : Nat) : Nat := c.cleanups.countP fun cln => cln.file == i

/-- An entry with `n` cleanups. -/
structure Entry (n : Nat) (inTree : Prop) (f : File) : Prop where
  count : f.count.toNat = n
  opened : 0 < n → f.plain ∧ f.fd.isSome
  noFile : ¬f.plain → f.fd = none
  kept : inTree → f.plain → f.close = false
  outside : ¬inTree → f.close = true ∧ 0 < n

/-- The tree and the queue have the same entries, but for those of `out`, which are not in the queue. -/
structure Shape (out : List Nat) (c : Cache) : Prop where
  sound : c.sound = true
  nodup : c.rbtree.Nodup
  queue : (out ++ c.expireQueue).Perm c.rbtree
  current : c.current = c.rbtree.length
  live : c.live.Nodup
  below : ∀ i ∈ c.live, i < c.next
  tree : ∀ i ∈ c.rbtree, i ∈ c.live
  cleanups : ∀ cln ∈ c.cleanups, cln.file ∈ c.live

/-- The descriptors of the entries are open, and no two entries have the same. -/
structure Inv (out : List Nat) (c : Cache) : Prop extends Shape out c where
  entries : ∀ i ∈ c.live, Entry (refs c i) (i ∈ c.rbtree) (c.files i)
  opened : ∀ i ∈ c.live, ∀ fd, (c.files i).fd = some fd → fd ∈ c.fds
  apart : ∀ i ∈ c.live, ∀ j ∈ c.live, ∀ fd, (c.files i).fd = some fd → (c.files j).fd = some fd → i = j

/-- Nothing but the entry `i` is different, and the descriptors of the others are open. -/
structure Near (i : Nat) (c c' : Cache) : Prop where
  files : ∀ j, j ≠ i → c'.files j = c.files j
  live : ∀ j, j ≠ i → (j ∈ c'.live ↔ j ∈ c.live)
  rbtree : ∀ j, j ≠ i → (j ∈ c'.rbtree ↔ j ∈ c.rbtree)
  refs : ∀ j, j ≠ i → refs c' j = refs c j
  fds : ∀ j ∈ c.live, j ≠ i → ∀ fd, (c.files j).fd = some fd → fd ∈ c'.fds

/-- The entry `i` itself is as it should be, if it is still there. -/
structure Own (i : Nat) (c c' : Cache) : Prop where
  entry : i ∈ c'.live → Entry (refs c' i) (i ∈ c'.rbtree) (c'.files i)
  fd : i ∈ c'.live → ∀ fd, (c'.files i).fd = some fd →
    fd ∈ c'.fds ∧ ∀ j ∈ c.live, j ≠ i → (c.files j).fd ≠ some fd

theorem Inv.near {out out' : List Nat} {c c' : Cache} {i : Nat} (inv : Inv out c) (near : Near i c c')
    (shape : Shape out' c') (own : Own i c c') : Inv out' c' where
  toShape := shape
  entries j mem := by
    by_cases same : j = i
    · exact same ▸ own.entry (same ▸ mem)
    · have entry := inv.entries j ((near.live j same).1 mem)
      rw [near.files j same, near.refs j same, propext (near.rbtree j same)]
      exact entry
  opened j mem fd has := by
    by_cases same : j = i
    · subst same
      exact (own.fd mem fd has).1
    · rw [near.files j same] at has
      exact near.fds j ((near.live j same).1 mem) same fd has
  apart j mem k mem' fd has has' := by
    by_cases same : j = i
    · by_cases same' : k = i
      · exact same.trans same'.symm
      · subst same
        rw [near.files k same'] at has'
        exact absurd has' ((own.fd mem fd has).2 k ((near.live k same').1 mem') same')
    · by_cases same' : k = i
      · subst same'
        rw [near.files j same] at has
        exact absurd has ((own.fd mem' fd has').2 j ((near.live j same).1 mem) same)
      · rw [near.files j same] at has
        rw [near.files k same'] at has'
        exact inv.apart j ((near.live j same).1 mem) k ((near.live k same').1 mem') fd has has'

@[simp] theorem setFile_files_self (c : Cache) (i : Nat) (file : File) : (c.setFile i file).files i = file :=
  Function.update_self _ _ _

theorem setFile_files_other {i j : Nat} (c : Cache) (file : File) (other : j ≠ i) :
    (c.setFile i file).files j = c.files j := Function.update_of_ne other _ _

theorem Entry.count_eq_zero {n : Nat} {inTree : Prop} {f : File} (entry : Entry n inTree f) :
    f.count = 0 ↔ n = 0 := by
  rw [← entry.count]
  exact ⟨fun zero => by rw [zero]; rfl, fun zero => BitVec.eq_of_toNat_eq zero⟩

theorem Inv.inUse_own {out : List Nat} {c : Cache} (inv : Inv out c) {i fd : Nat} (mem : i ∈ c.live)
    (has : (c.files i).fd = some fd) (none : refs c i = 0) : c.inUse fd = false := by
  rw [Cache.inUse, List.any_eq_false]
  intro j mem' used
  simp only [Bool.and_eq_true, beq_iff_eq, bne_iff_ne] at used
  obtain rfl := inv.apart j mem' i mem fd used.1 has
  exact used.2 ((inv.entries j mem).count_eq_zero.2 none)

theorem Inv.queueRemove {c : Cache} {i : Nat} (inv : Inv [] c) (mem : i ∈ c.expireQueue) :
    Inv [i] (c.queueRemove i) where
  sound := by simp [Cache.queueRemove, inv.sound, mem]
  nodup := inv.nodup
  queue := (List.perm_cons_erase mem).symm.trans inv.queue
  current := inv.current
  live := inv.live
  below := inv.below
  tree := inv.tree
  cleanups := inv.cleanups
  entries := inv.entries
  opened := inv.opened
  apart := inv.apart

theorem Shape.queueInsertHead {c : Cache} {i : Nat} (shape : Shape [i] c) : Shape [] (c.queueInsertHead i) where
  sound := by
    have nodup : (i :: c.expireQueue).Nodup := shape.queue.symm.nodup shape.nodup
    simp [Cache.queueInsertHead, shape.sound, (List.nodup_cons.1 nodup).1]
  nodup := shape.nodup
  queue := shape.queue
  current := shape.current
  live := shape.live
  below := shape.below
  tree := shape.tree
  cleanups := shape.cleanups

theorem Shape.rbtreeDelete {c : Cache} {i : Nat} (shape : Shape [i] c) : Shape [] (c.rbtreeDelete i) where
  sound := by
    have mem : i ∈ c.rbtree := shape.queue.subset (by simp)
    simp [Cache.rbtreeDelete, shape.sound, mem]
  nodup := shape.nodup.erase i
  queue := by
    have mem : i ∈ c.rbtree := shape.queue.subset (by simp)
    exact List.Perm.cons_inv (shape.queue.trans (List.perm_cons_erase mem))
  current := by
    have mem : i ∈ c.rbtree := shape.queue.subset (by simp)
    simp only [Cache.rbtreeDelete, shape.current, List.length_erase_of_mem mem]
  live := shape.live
  below := shape.below
  tree j mem := shape.tree j (List.mem_of_mem_erase mem)
  cleanups := shape.cleanups

theorem Shape.setFile {out : List Nat} {c : Cache} (shape : Shape out c) (i : Nat) (file : File) :
    Shape out (c.setFile i file) :=
  ⟨shape.sound, shape.nodup, shape.queue, shape.current, shape.live, shape.below, shape.tree, shape.cleanups⟩

theorem Shape.closeFile {out : List Nat} {c : Cache} (shape : Shape out c) (fd : Option Nat)
    (closes : ∀ d, fd = some d → d ∈ c.fds ∧ c.inUse d = false) : Shape out (c.closeFile fd) := by
  cases fd with
  | none => exact shape
  | some d =>
    refine ⟨?_, shape.nodup, shape.queue, shape.current, shape.live, shape.below, shape.tree, shape.cleanups⟩
    simp [Cache.closeFile, shape.sound, closes d rfl]

theorem Shape.free {out : List Nat} {c : Cache} {i : Nat} (shape : Shape out c) (mem : i ∈ c.live)
    (zero : (c.files i).count = 0) (outside : i ∉ c.rbtree) (none : refs c i = 0) : Shape out (c.free i) where
  sound := by simp [Cache.free, shape.sound, mem, zero]
  nodup := shape.nodup
  queue := shape.queue
  current := shape.current
  live := shape.live.erase i
  below j mem := shape.below j (List.mem_of_mem_erase mem)
  tree j mem := by
    have other : j ≠ i := fun same => outside (same ▸ mem)
    exact (List.mem_erase_of_ne other).2 (shape.tree j mem)
  cleanups cln mem := by
    have other : cln.file ≠ i := fun same => by
      have some' := List.countP_eq_zero.1 none cln mem
      simp [same] at some'
    exact (List.mem_erase_of_ne other).2 (shape.cleanups cln mem)

section Near

variable {c c' : Cache} {i : Nat}

theorem Inv.refl_near {out : List Nat} (inv : Inv out c) (i : Nat) : Near i c c :=
  ⟨fun _ _ => rfl, fun _ _ => Iff.rfl, fun _ _ => Iff.rfl, fun _ _ => rfl, fun j mem _ => inv.opened j mem⟩

theorem Near.setFile (near : Near i c c') (file : File) : Near i c (c'.setFile i file) :=
  ⟨fun j other => (setFile_files_other c' file other).trans (near.files j other), near.live, near.rbtree, near.refs,
    near.fds⟩

theorem Near.queueRemove (near : Near i c c') (j : Nat) : Near i c (c'.queueRemove j) :=
  ⟨near.files, near.live, near.rbtree, near.refs, near.fds⟩

theorem Near.queueInsertHead (near : Near i c c') (j : Nat) : Near i c (c'.queueInsertHead j) :=
  ⟨near.files, near.live, near.rbtree, near.refs, near.fds⟩

theorem Near.rbtreeDelete (near : Near i c c') : Near i c (c'.rbtreeDelete i) :=
  ⟨near.files, near.live, fun j other => (List.mem_erase_of_ne other).trans (near.rbtree j other), near.refs, near.fds⟩

theorem Near.free (near : Near i c c') : Near i c (c'.free i) :=
  ⟨near.files, fun j other => (List.mem_erase_of_ne other).trans (near.live j other), near.rbtree, near.refs, near.fds⟩

theorem Near.closeFile (near : Near i c c') {fd : Option Nat}
    (others : ∀ j ∈ c.live, j ≠ i → ∀ d, (c.files j).fd = some d → fd ≠ some d) : Near i c (c'.closeFile fd) := by
  cases fd with
  | none => exact near
  | some d =>
    refine ⟨near.files, near.live, near.rbtree, near.refs, fun j mem other d' has => ?_⟩
    have differ : d' ≠ d := fun same => others j mem other d' has (congrArg some same.symm)
    exact (List.mem_erase_of_ne differ).2 (near.fds j mem other d' has)

end Near

theorem Inv.others {out : List Nat} {c : Cache} (inv : Inv out c) {i : Nat} (mem : i ∈ c.live) :
    ∀ j ∈ c.live, j ≠ i → ∀ d, (c.files j).fd = some d → (c.files i).fd ≠ some d :=
  fun j mem' other d has same => other (inv.apart j mem' i mem d has same)

theorem Inv.closes {out : List Nat} {c : Cache} (inv : Inv out c) {i : Nat} (mem : i ∈ c.live)
    (none : refs c i = 0) : ∀ d, (c.files i).fd = some d → d ∈ c.fds ∧ c.inUse d = false :=
  fun d has => ⟨inv.opened i mem d has, inv.inUse_own mem has none⟩

/-- A descriptor that is open and that no entry has. -/
structure Unowned (d : Nat) (c : Cache) : Prop where
  opened : d ∈ c.fds
  unowned : ∀ j ∈ c.live, (c.files j).fd ≠ some d

theorem Unowned.closeFile {d : Nat} {c : Cache} (unowned : Unowned d c) {fd : Option Nat} (other : fd ≠ some d) :
    Unowned d (c.closeFile fd) := by
  cases fd with
  | none => exact unowned
  | some d' =>
    have differ : d ≠ d' := fun same => other (congrArg some same.symm)
    exact ⟨(List.mem_erase_of_ne differ).2 unowned.opened, unowned.unowned⟩

theorem Unowned.setFile {d : Nat} {c : Cache} (unowned : Unowned d c) {i : Nat} {file : File}
    (other : file.fd ≠ some d) : Unowned d (c.setFile i file) where
  opened := unowned.opened
  unowned j mem := by
    by_cases own : j = i
    · rw [own, setFile_files_self]
      exact other
    · rw [setFile_files_other c file own]
      exact unowned.unowned j mem

theorem Unowned.free {d : Nat} {c : Cache} (unowned : Unowned d c) (i : Nat) : Unowned d (c.free i) :=
  ⟨unowned.opened, fun j mem => unowned.unowned j (List.mem_of_mem_erase mem)⟩

theorem Near.inUse {out : List Nat} {c m : Cache} {i d : Nat} (inv : Inv out c) (near : Near i c m) (mem : i ∈ c.live)
    (has : (c.files i).fd = some d) (zero : (m.files i).count = 0) : m.inUse d = false := by
  rw [Cache.inUse, List.any_eq_false]
  intro j mem' used
  simp only [Bool.and_eq_true, beq_iff_eq, bne_iff_ne] at used
  by_cases own : j = i
  · exact used.2 (own ▸ zero)
  · rw [near.files j own] at used
    exact own (inv.apart j ((near.live j own).1 mem') i mem d used.1 has)

end NgxFormal.Core.OpenFileCache

/-! Entries that leave the cache, and cleanups. -/

namespace NgxFormal.Core.OpenFileCache

/-- The end of `ngx_close_cached_file` for an entry that is not in the tree any more: `m` is the cache
then, and `c` a cache before it. -/
theorem closeUnused_gone {out out' : List Nat} {c m : Cache} {i : Nat} (inv : Inv out c) (mem : i ∈ c.live)
    (near : Near i c m) (shape : Shape out' m) (outside : i ∉ m.rbtree) (live : i ∈ m.live)
    (close : (m.files i).close = true) (plain : (m.files i).plain) (fd : (m.files i).fd = (c.files i).fd)
    (fds : m.fds = c.fds) (count : (m.files i).count.toNat = refs m i)
    (opened : 0 < refs m i → (m.files i).fd.isSome) :
    Inv out' (closeUnused m i) ∧ ∀ d, Unowned d m → Unowned d (closeUnused m i) := by
  unfold closeUnused
  dsimp only
  split
  next used =>
    have pos : 0 < refs m i := by
      rw [← count]
      exact Nat.pos_of_ne_zero fun zero => used (BitVec.eq_of_toNat_eq zero)
    refine ⟨inv.near near shape ⟨fun _ => ⟨count, fun some' => ⟨plain, opened some'⟩, fun other => absurd plain other,
      fun inTree => absurd inTree outside, fun _ => ⟨close, pos⟩⟩, fun _ d has => ?_⟩, fun d unowned => unowned⟩
    rw [fd] at has
    exact ⟨fds ▸ inv.opened i mem d has, fun j mem' other has' => other (inv.apart j mem' i mem d has' has)⟩
  next unused =>
    have zero : (m.files i).count = 0 := not_not.1 unused
    have none : refs m i = 0 := by
      rw [← count, zero]
      rfl
    have others : ∀ j ∈ c.live, j ≠ i → ∀ d, (c.files j).fd = some d → (m.files i).fd ≠ some d := by
      rw [fd]
      exact inv.others mem
    have closed : Shape out' (m.closeFile (m.files i).fd) := shape.closeFile _ fun d has => by
      rw [fd] at has
      exact ⟨fds ▸ inv.opened i mem d has, near.inUse inv mem has zero⟩
    have same : ∀ fd, (m.closeFile fd).live = m.live ∧ (m.closeFile fd).rbtree = m.rbtree ∧
        (m.closeFile fd).cleanups = m.cleanups ∧ (m.closeFile fd).files = m.files := fun fd => by
      cases fd <;> exact ⟨rfl, rfl, rfl, rfl⟩
    obtain ⟨lives, trees, cleanups, files⟩ := same (m.files i).fd
    have gone : i ∉ ((m.closeFile (m.files i).fd).setFile i { m.files i with fd := .none }).live.erase i := fun mem' => by
      exact ((closed.setFile i _).live.mem_erase_iff.1 mem').1 rfl
    refine ⟨inv.near ((near.closeFile others).setFile _).free ?_ ⟨fun mem' => absurd mem' gone, fun mem' => absurd mem' gone⟩,
      fun d unowned => ?_⟩
    · refine (closed.setFile i _).free (lives ▸ live) (by simpa using zero) (trees ▸ outside) ?_
      simpa [refs, Cache.setFile, cleanups] using none
    · exact ((unowned.closeFile (unowned.unowned i live)).setFile (by simp)).free i

theorem refs_positive {c : Cache} {cln : Cleanup} (mem : cln ∈ c.cleanups) : 0 < refs c cln.file :=
  List.countP_pos_iff.2 ⟨cln, mem, by simp⟩

theorem expireLast_inv (now : Int) {c : Cache} {i : Nat} (inv : Inv [] c) (mem : i ∈ c.expireQueue) :
    Inv [] (expireLast now c i) ∧ ∀ d, Unowned d c → Unowned d (expireLast now c i) := by
  have inTree : i ∈ c.rbtree := inv.queue.subset mem
  have live : i ∈ c.live := inv.tree i inTree
  have entry := inv.entries i live
  have removed := inv.queueRemove mem
  have shape : Shape [] ((c.queueRemove i).rbtreeDelete i) := removed.toShape.rbtreeDelete
  have near : Near i c ((c.queueRemove i).rbtreeDelete i) := ((inv.refl_near i).queueRemove i).rbtreeDelete
  have outside : i ∉ ((c.queueRemove i).rbtreeDelete i).rbtree := fun mem' => (inv.nodup.mem_erase_iff.1 mem').1 rfl
  unfold expireLast
  dsimp only
  split
  next plain =>
    unfold closeCachedFile
    rw [setFile_files_self, if_pos rfl]
    have gone := closeUnused_gone inv live (near.setFile { c.files i with close := true }) (shape.setFile i _) outside
      live (by rw [setFile_files_self]) (by rw [setFile_files_self]; exact plain) (by rw [setFile_files_self]) rfl
      (by rw [setFile_files_self]; exact entry.count) (fun used => by rw [setFile_files_self]; exact (entry.opened used).2)
    exact ⟨gone.1, fun d unowned => gone.2 d ((⟨unowned.opened, unowned.unowned⟩ : Unowned d
      ((c.queueRemove i).rbtreeDelete i)).setFile (unowned.unowned i live))⟩
  next other =>
    have none : refs c i = 0 := by
      by_contra used
      exact other (entry.opened (Nat.pos_of_ne_zero used)).1
    have gone : i ∉ c.live.erase i := fun mem' => (inv.live.mem_erase_iff.1 mem').1 rfl
    exact ⟨inv.near near.free (shape.free live (entry.count_eq_zero.2 none) outside none)
      ⟨fun mem' => absurd mem' gone, fun mem' => absurd mem' gone⟩,
      fun d unowned => (⟨unowned.opened, unowned.unowned⟩ : Unowned d ((c.queueRemove i).rbtreeDelete i)).free i⟩

theorem expireTurns_inv (now : Int) (turns : Nat) (force : Bool) {c : Cache} (inv : Inv [] c) :
    Inv [] (expireTurns now turns force c) ∧ ∀ d, Unowned d c → Unowned d (expireTurns now turns force c) := by
  induction turns generalizing force c with
  | zero => exact ⟨inv, fun _ unowned => unowned⟩
  | succ turns ih =>
    unfold expireTurns
    split
    · exact ⟨inv, fun _ unowned => unowned⟩
    next i last =>
      split
      · exact ⟨inv, fun _ unowned => unowned⟩
      · have expired := expireLast_inv now inv (List.mem_of_getLast? last)
        have later := ih false expired.1
        exact ⟨later.1, fun d unowned => later.2 d (expired.2 d unowned)⟩

theorem expireOldCachedFiles_inv (now : Int) (n : Nat) {c : Cache} (inv : Inv [] c) :
    Inv [] (expireOldCachedFiles now n c) ∧ ∀ d, Unowned d c → Unowned d (expireOldCachedFiles now n c) :=
  expireTurns_inv now _ _ inv

theorem Inv.touch {out : List Nat} {c : Cache} {i : Nat} {file : File} (inv : Inv out c) (mem : i ∈ c.live)
    (entry : Entry (refs c i) (i ∈ c.rbtree) file) (fd : file.fd = (c.files i).fd) : Inv out (c.setFile i file) := by
  refine inv.near ((inv.refl_near i).setFile file) (inv.toShape.setFile i file) ⟨fun _ => ?_, fun _ d has => ?_⟩
  · rw [setFile_files_self]
    exact entry
  · rw [setFile_files_self, fd] at has
    exact ⟨inv.opened i mem d has, fun j mem' other has' => other (inv.apart j mem' i mem d has' has)⟩

/-- The end of `ngx_close_cached_file` for an entry that stays in the tree. -/
theorem closeUnused_kept {c : Cache} {i : Nat} (inv : Inv [] c) (mem : i ∈ c.rbtree)
    (close : (c.files i).close = false) : Inv [] (closeUnused c i) := by
  have live := inv.tree i mem
  have entry := inv.entries i live
  unfold closeUnused
  dsimp only
  split
  · exact inv
  next unused =>
    have none : refs c i = 0 := entry.count_eq_zero.1 (not_not.1 unused)
    rw [if_neg (by simp [close])]
    have near := ((inv.refl_near i).closeFile (inv.others live)).setFile { c.files i with fd := .none }
    have shape := (inv.toShape.closeFile _ (inv.closes live none)).setFile i { c.files i with fd := .none }
    have same : refs (c.closeFile (c.files i).fd) i = refs c i ∧
        (c.closeFile (c.files i).fd).rbtree = c.rbtree := by
      cases (c.files i).fd <;> exact ⟨rfl, rfl⟩
    refine inv.near near shape ⟨fun _ => ?_, fun _ d has => ?_⟩
    · rw [setFile_files_self]
      have zero : refs ((c.closeFile (c.files i).fd).setFile i { c.files i with fd := .none }) i = 0 := same.1.trans none
      rw [zero]
      exact ⟨by rw [← none]; exact entry.count, fun used => absurd used (Nat.lt_irrefl 0), fun _ => rfl,
        fun _ plain => entry.kept mem plain, fun outside => absurd (same.2 ▸ mem) outside⟩
    · rw [setFile_files_self] at has
      exact absurd has (by simp)

theorem refs_eraseIdx {c : Cache} {turn : Nat} {cln : Cleanup} (at1 : c.cleanups[turn]? = some cln) (j : Nat) :
    (if cln.file = j then 1 else 0) + refs { c with cleanups := c.cleanups.eraseIdx turn } j = refs c j := by
  obtain ⟨below, rfl⟩ := List.getElem?_eq_some_iff.1 at1
  have perm := (List.getElem_cons_eraseIdx_perm below).countP_eq fun cln => cln.file == j
  rw [List.countP_cons] at perm
  simp only [refs, ← perm, beq_iff_eq]
  omega

theorem openFileCleanup_inv (now : Int) {c : Cache} {turn : Nat} {cln : Cleanup} (inv : Inv [] c)
    (at1 : c.cleanups[turn]? = some cln) :
    Inv [] (openFileCleanup now cln { c with cleanups := c.cleanups.eraseIdx turn }) := by
  have taken : cln ∈ c.cleanups := List.mem_of_getElem? at1
  have live := inv.cleanups cln taken
  have entry := inv.entries cln.file live
  have used := refs_positive taken
  have less := refs_eraseIdx at1
  have opened := entry.opened used
  unfold openFileCleanup
  refine (expireOldCachedFiles_inv now 1 ?_).1
  have left : refs { c with cleanups := c.cleanups.eraseIdx turn } cln.file = refs c cln.file - 1 := by
    have := less cln.file
    rw [if_pos rfl] at this
    omega
  have count : ((c.files cln.file).count - 1).toNat = refs c cln.file - 1 := by
    have := entry.count
    bv_omega
  have near : Near cln.file c ({ c with cleanups := c.cleanups.eraseIdx turn }.setFile cln.file
      { c.files cln.file with count := (c.files cln.file).count - 1 }) := by
    have near : Near cln.file c { c with cleanups := c.cleanups.eraseIdx turn } :=
      ⟨fun _ _ => rfl, fun _ _ => Iff.rfl, fun _ _ => Iff.rfl, fun j other => by
        have := less j
        rw [if_neg (Ne.symm other)] at this
        omega, fun j mem _ => inv.opened j mem⟩
    exact near.setFile _
  have shape : Shape [] ({ c with cleanups := c.cleanups.eraseIdx turn }.setFile cln.file
      { c.files cln.file with count := (c.files cln.file).count - 1 }) :=
    ⟨inv.sound, inv.nodup, inv.queue, inv.current, inv.live, inv.below, inv.tree,
      fun other mem => inv.cleanups other (List.mem_of_mem_eraseIdx mem)⟩
  dsimp only
  generalize made : ({ c with cleanups := c.cleanups.eraseIdx turn }.setFile cln.file
    { c.files cln.file with count := (c.files cln.file).count - 1 }) = m at near shape
  have file : m.files cln.file = { c.files cln.file with count := (c.files cln.file).count - 1 } := by
    rw [← made, setFile_files_self]
  have same : m.live = c.live ∧ m.rbtree = c.rbtree ∧ m.fds = c.fds ∧ refs m cln.file = refs c cln.file - 1 := by
    rw [← made]
    exact ⟨rfl, rfl, rfl, left⟩
  have counted : (m.files cln.file).count.toNat = refs m cln.file := by
    rw [file, same.2.2.2]
    exact count
  by_cases inTree : cln.file ∈ c.rbtree
  · have close : (m.files cln.file).close = false := by
      rw [file]
      exact entry.kept inTree opened.1
    have kept : Entry (refs m cln.file) (cln.file ∈ m.rbtree) (m.files cln.file) := by
      refine ⟨counted, fun _ => ?_, fun other => ?_, fun _ _ => close, fun outside => absurd (same.2.1 ▸ inTree) outside⟩
      · rw [file]
        exact opened
      · rw [file] at other
        exact absurd opened.1 other
    have inv' : Inv [] m := inv.near near shape ⟨fun _ => kept, fun _ d has => by
      rw [file] at has
      exact ⟨same.2.2.1 ▸ inv.opened _ live d has, fun j mem other has' => other (inv.apart j mem _ live d has' has)⟩⟩
    have mem : cln.file ∈ m.rbtree := same.2.1 ▸ inTree
    have touched : Inv [] (m.setFile cln.file { m.files cln.file with accessed := now }) :=
      inv'.touch (inv'.tree _ mem) ⟨kept.count, kept.opened, kept.noFile, kept.kept, kept.outside⟩ rfl
    have queued := touched.queueRemove (inv'.queue.symm.subset mem)
    have requeued : Inv [] (((m.setFile cln.file { m.files cln.file with accessed := now }).queueRemove
        cln.file).queueInsertHead cln.file) :=
      { queued with toShape := queued.toShape.queueInsertHead }
    unfold closeCachedFile
    rw [if_neg (by simp [close])]
    dsimp only
    split
    · exact requeued
    · refine closeUnused_kept requeued mem ?_
      show ((m.setFile cln.file { m.files cln.file with accessed := now }).files cln.file).close = false
      rw [setFile_files_self]
      exact close
  · have outside := entry.outside inTree
    have close : (m.files cln.file).close = true := by
      rw [file]
      exact outside.1
    unfold closeCachedFile
    rw [if_pos close]
    refine (closeUnused_gone inv live near shape (same.2.1 ▸ inTree) (same.1 ▸ live) close ?_ ?_ same.2.2.1 counted
      fun _ => ?_).1
    · rw [file]
      exact opened.1
    · rw [file]
    · rw [file]
      exact opened.2

end NgxFormal.Core.OpenFileCache
