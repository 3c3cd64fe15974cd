import Sparrow.Userprog.Boot

/-!
# Cached inodes and the kernel pool

`open_inodes` is shared by all tasks, so an inode on it must lie in the kernel pool: a
process cannot follow a pointer into the heap of another one, and `inode_close` frees the
object as a kernel thread would. `inode_open` takes care of this by clearing `pgdir`
around its `sys_malloc`; `file_create` does not.

`KernelHeld` is kept by every call that does not reach `file_create` from a user process.
-/

namespace Sparrow
set_option autoImplicit false

/-- Every inode of the cache lies in the kernel pool. -/
def KernelHeld (s : Fs) : Prop := ∀ a ∈ s.openInodes, s.pool a = none

section Calls

variable {part : Partition} {me : Option Nat} {s t : Fs}

theorem KernelHeld.of_eq (held : KernelHeld s) (list : t.openInodes = s.openInodes) (pool : t.pool = s.pool) :
    KernelHeld t := by
  unfold KernelHeld
  rw [list, pool]
  exact held

/-- Any task may dereference a cached inode and do the last `inode_close` on it. -/
theorem KernelHeld.inodeClose_returns (held : KernelHeld s) {a : Nat} (mem : a ∈ s.openInodes) :
    Reachable me s a ∧ ∃ t, inodeClose me s a = .ok t := by
  have kernel := held a mem
  refine ⟨.inl kernel, ?_⟩
  unfold inodeClose
  rw [defined_of (.inl kernel), ok_bind]
  dsimp only
  split
  · rw [assertThat_of (show (s.setInode a _).pool a = none from kernel)]
    exact ⟨_, rfl⟩
  · exact ⟨_, rfl⟩

theorem inodeOpen_held {n addr : Nat} (h : inodeOpen part me s n = .ok (addr, t)) (held : KernelHeld s) :
    KernelHeld t := by
  obtain ⟨-, -, -, rfl⟩ | ⟨-, -, -, rfl⟩ := inodeOpen_ok h
  · exact held.of_eq rfl rfl
  · intro a mem
    simp only [Fs.load, List.mem_cons] at mem ⊢
    by_cases new : a = s.nextAddr
    · rw [if_pos new]
    · rw [if_neg new]
      exact held a (mem.resolve_left new)

theorem inodeClose_held {addr : Nat} (h : inodeClose me s addr = .ok t) (held : KernelHeld s) : KernelHeld t := by
  obtain ⟨-, rfl⟩ := inodeClose_ok h
  intro a mem
  apply held a
  simp only [Fs.release] at mem
  split at mem
  · exact List.mem_of_mem_erase mem
  · exact mem

theorem cacheInvariant_held : CacheInvariant part me KernelHeld where
  opens := inodeOpen_held
  closes := inodeClose_held
  mallocs held := held.of_eq rfl rfl

theorem dirClose_held {dir : Dir} (h : dirClose me s dir = .ok t) (held : KernelHeld s) : KernelHeld t :=
  dirClose_keeps inodeClose_held h held

theorem freeBlocks_held : ∀ (l : List Nat) {s : Fs}, freeBlocks part l s = .ok t → KernelHeld s → KernelHeld t := by
  intro l
  induction l with
  | nil =>
    intro s h held
    rw [freeBlocks, pure_ok] at h
    rw [← h]
    exact held
  | cons lba rest ih =>
    intro s h held
    simp only [freeBlocks, ite_bind_ok] at h
    obtain ⟨s1, freed, h⟩ := h
    apply ih h
    split at freed
    · simp only [freeBlock, bind_ok, assertThat_ok, pure_ok, exists_const] at freed
      obtain ⟨-, b, -, disk, -, rfl⟩ := freed
      exact held.of_eq rfl rfl
    · rw [pure_ok] at freed
      rw [← freed]
      exact held

theorem inodeRelease_held {n : Nat} (h : inodeRelease part me s n = .ok t) (held : KernelHeld s) : KernelHeld t := by
  simp only [inodeRelease, bind_ok, assertThat_ok, exists_const, Prod.exists] at h
  obtain ⟨addr, s1, opened, -, h⟩ := h
  have held1 := inodeOpen_held opened held
  split at h
  · simp only [freeBlock, bind_ok, assertThat_ok, mustMalloc_ok, pure_ok, exists_const] at h
    obtain ⟨table, -, _, ⟨-, b, -, disk, -, rfl⟩, _, rfl, s3, freed, b', -, disk3, -, s4, ⟨-, rfl⟩, disk4, -, closed⟩ := h
    exact inodeClose_held closed ((freeBlocks_held _ freed (held1.of_eq rfl rfl)).of_eq rfl rfl)
  · simp only [bind_ok, mustMalloc_ok, pure_ok] at h
    obtain ⟨_, rfl, s3, freed, b', -, disk3, -, s4, ⟨-, rfl⟩, disk4, -, closed⟩ := h
    exact inodeClose_held closed ((freeBlocks_held _ freed held1).of_eq rfl rfl)

theorem dirRemove_held {parent child : Dir} {r : Option Unit} (h : dirRemove part me s parent child = .ok (r, t))
    (held : KernelHeld s) : KernelHeld t := by
  simp only [dirRemove, bind_ok, defined_ok, assertThat_ok, exists_const] at h
  obtain ⟨-, -, h⟩ := h
  split at h
  · simp only [bind_ok, defined_ok, pure_ok, exists_const, Prod.exists] at h
    obtain ⟨-, _, v, -, s1, released, h⟩ := h
    cases h
    exact inodeRelease_held released (held.of_eq rfl rfl)
  · rw [pure_ok] at h
    cases h
    exact held.of_eq rfl rfl

theorem fileOpen_held {fdTable fdTable' : Nat → Int} {n flag : Nat} {r : Option Nat}
    (h : fileOpen part me s fdTable n flag = .ok (r, t, fdTable')) (held : KernelHeld s) : KernelHeld t := by
  simp only [fileOpen] at h
  split at h
  · rw [pure_ok] at h
    cases h
    exact held
  · simp only [bind_ok, Prod.exists] at h
    obtain ⟨addr, s1, opened, h⟩ := h
    have held1 := inodeOpen_held opened held
    split at h
    · rw [pure_ok] at h
      cases h
      exact held1.of_eq rfl rfl
    · rw [pure_ok] at h
      cases h
      split
      · exact held1.of_eq rfl rfl
      · exact held1.of_eq rfl rfl

theorem fileClose_held {g : Nat} (h : fileClose me s g = .ok t) (held : KernelHeld s) : KernelHeld t := by
  simp only [fileClose] at h
  split at h
  · simp only [bind_ok, defined_ok, pure_ok, exists_const] at h
    obtain ⟨-, s1, closed, rfl⟩ := h
    exact (inodeClose_held closed (held.of_eq rfl rfl)).of_eq rfl rfl
  · exact (throw_ok.1 h).elim

/-- A kernel thread that creates a file allocates the inode in the kernel pool. -/
theorem fileCreate_held {fdTable fdTable' : Nat → Int} {d : Dir} {name : List Byte} {flag : Nat} {r : Option Nat}
    (h : fileCreate part none s fdTable d name flag = .ok (r, t, fdTable')) (held : KernelHeld s) : KernelHeld t := by
  simp only [fileCreate] at h
  split at h
  · rw [pure_ok] at h
    cases h
    exact held.of_eq rfl rfl
  split at h
  · rw [pure_ok] at h
    cases h
    exact held.of_eq rfl rfl
  split at h
  · rw [pure_ok] at h
    cases h
    exact held.of_eq rfl rfl
  -- from here on the new object is in the kernel pool
  have new : ∀ {u : Fs}, u.openInodes = s.openInodes → u.pool = (fun a => if a = s.nextAddr then none else s.pool a) →
      KernelHeld u := by
    intro u list pool a mem
    rw [pool]
    rw [list] at mem
    simp only
    split
    · rfl
    · exact held a mem
  split at h
  · rw [pure_ok] at h
    cases h
    exact new rfl rfl
  simp only [bind_ok, defined_ok, exists_const, Prod.exists] at h
  obtain ⟨entry, -, -, ok, v, -, h⟩ := h
  split at h
  · rw [pure_ok] at h
    cases h
    exact new rfl rfl
  · simp only [fileCreated, bind_ok, pure_ok] at h
    obtain ⟨s1, ⟨disk1, -, disk2, -, disk3, -, rfl⟩, h⟩ := h
    cases h
    intro a mem
    simp only [Fs.setInode, Fs.setVnode, Fs.setFile, List.mem_cons] at mem ⊢
    split
    · rfl
    · rename_i ne
      exact held a (mem.resolve_left ne)

end Calls

/-- `sys_open` gets as far as `file_create`: the path names nothing yet, in a directory
that exists, and `O_CREAT` is given. -/
def ReachesFileCreate (part : Partition) (me : Option Nat) (s : Fs) (pathname : List Byte) (flags : Nat) : Prop :=
  pathname.getLast? ≠ some slash ∧ flags &&& oCreat ≠ 0 ∧ ∃ r t, searchFile part me s pathname = .ok (r, t) ∧
    r.fileType ≠ .directory ∧ r.inodeNo = none ∧ pathDepthCnt pathname = pathDepthCnt r.searchedPath

/-- The call makes `file_create` allocate an inode in the heap of a user process. -/
def CreatesInUserHeap (part : Partition) (σ : Sys) (pid : Nat) (call : Call) : Prop :=
  (σ.procs pid).user = true ∧ ∃ pathname flags, call = .open pathname flags ∧
    ReachesFileCreate part (σ.heapOf pid) σ.fs pathname flags

section Paths

variable {part : Partition} {me : Option Nat} {s t : Fs}

theorem closeParent_held {r : SearchResult} (h : closeParent me s r = .ok t) (held : KernelHeld s) : KernelHeld t :=
  dirClose_held h held

/-- **`sys_open`** ends in one of three ways once the path is looked up: it fails and
closes the parent directory, it creates the file, or it opens the one that is there. -/
theorem openPath_cases {fdTable fdTable' : Nat → Int} {path : List Byte} {flags : Nat} {fd : Option Nat}
    (h : openPath part me s fdTable path flags = .ok (fd, t, fdTable')) :
    t = s ∨ ∃ r s1, flags ≤ 7 ∧ searchFile part me s path = .ok (r, s1) ∧
      (closeParent me s1 r = .ok t ∨
        (ReachesFileCreate part me s path flags ∧ ∃ s2,
          fileCreate part me s1 fdTable r.parentDir (lastName path) flags = .ok (fd, s2, fdTable') ∧
          closeParent me s2 r = .ok t) ∨
        ∃ n, fileOpen part me s1 fdTable n flags = .ok (fd, t, fdTable')) := by
  simp only [openPath, bind_ok, defined_ok, exists_const] at h
  obtain ⟨-, h⟩ := h
  split at h
  · rw [pure_ok] at h
    cases h
    exact .inl rfl
  rename_i proper
  simp only [bind_ok, assertThat_ok, exists_const, Prod.exists] at h
  obtain ⟨small, depth, isDepth, r, s1, search, h⟩ := h
  refine .inr ⟨r, s1, small, search, ?_⟩
  split at h
  · simp only [bind_ok, pure_ok] at h
    obtain ⟨s2, closed, h⟩ := h
    cases h
    exact .inl closed
  rename_i notDir
  simp only [bind_ok] at h
  obtain ⟨depth', isDepth', h⟩ := h
  split at h
  · simp only [bind_ok, pure_ok] at h
    obtain ⟨s2, closed, h⟩ := h
    cases h
    exact .inl closed
  rename_i sameDepth
  split at h
  · rename_i absent
    split at h
    · simp only [bind_ok, pure_ok] at h
      obtain ⟨s2, closed, h⟩ := h
      cases h
      exact .inl closed
    · rename_i create
      have same : pathDepthCnt path = pathDepthCnt r.searchedPath := by
        rw [isDepth, isDepth', Decidable.not_not.1 sameDepth]
      simp only [bind_ok, pure_ok, Prod.exists] at h
      obtain ⟨fd', s2, table, created, s3, closed, h⟩ := h
      cases h
      exact .inr (.inl ⟨⟨proper, create, r, s1, search, notDir, absent, same⟩, s2, created, closed⟩)
  · split at h
    · simp only [bind_ok, pure_ok] at h
      obtain ⟨s2, closed, h⟩ := h
      cases h
      exact .inl closed
    · exact .inr (.inr ⟨_, h⟩)

theorem openPath_held {fdTable fdTable' : Nat → Int} {path : List Byte} {flags : Nat} {fd : Option Nat}
    (h : openPath part me s fdTable path flags = .ok (fd, t, fdTable')) (held : KernelHeld s)
    (kernel : ReachesFileCreate part me s path flags → me = none) : KernelHeld t := by
  obtain rfl | ⟨r, s1, -, search, done⟩ := openPath_cases h
  · exact held
  have held1 := cacheInvariant_held.searchFile search held
  obtain closed | ⟨reaches, s2, created, closed⟩ | ⟨n, opened⟩ := done
  · exact closeParent_held closed held1
  · obtain rfl := kernel reaches
    exact closeParent_held closed (fileCreate_held created held1)
  · exact fileOpen_held opened held1

theorem unlinkPath_held {path : List Byte} {r : Option Unit} (h : unlinkPath part me s path = .ok (r, t))
    (held : KernelHeld s) : KernelHeld t := by
  simp only [unlinkPath, bind_ok, assertThat_ok, exists_const, Prod.exists] at h
  obtain ⟨-, sr, s1, search, -, h⟩ := h
  have held1 := cacheInvariant_held.searchFile search held
  split at h
  · simp only [bind_ok, pure_ok] at h
    obtain ⟨s2, closed, h⟩ := h
    cases h
    exact closeParent_held closed held1
  split at h
  · simp only [bind_ok, pure_ok] at h
    obtain ⟨s2, closed, h⟩ := h
    cases h
    exact closeParent_held closed held1
  simp only [bind_ok] at h
  obtain ⟨used, -, h⟩ := h
  split at h
  · simp only [bind_ok, pure_ok] at h
    obtain ⟨s2, closed, h⟩ := h
    cases h
    exact closeParent_held closed held1
  simp only [unlinkFound] at h
  split at h
  · simp only [bind_ok, pure_ok] at h
    obtain ⟨s2, closed, h⟩ := h
    cases h
    exact closeParent_held closed (held1.of_eq rfl rfl)
  · simp only [bind_ok, defined_ok, pure_ok, exists_const, Prod.exists] at h
    obtain ⟨-, _, v, -, s2, released, s3, closed, h⟩ := h
    cases h
    exact closeParent_held closed (inodeRelease_held released (held1.of_eq rfl rfl))

/-- The end of `sys_mkdir` leaves the cache and the heap alone. -/
theorem makeDir_cache {d : Dir} {name : List Byte} {r : Option Unit} (h : makeDir part me s d name = .ok (r, t)) :
    t.openInodes = s.openInodes ∧ t.pool = s.pool ∧ t.mallocs = s.mallocs := by
  simp only [makeDir] at h
  split at h
  · rw [pure_ok] at h
    cases h
    exact ⟨rfl, rfl, rfl⟩
  split at h
  · rw [pure_ok] at h
    cases h
    exact ⟨rfl, rfl, rfl⟩
  simp only [bind_ok, assertThat_ok, defined_ok, exists_const, Prod.exists] at h
  obtain ⟨-, disk, -, -, disk1, -, entry, -, ok, v, -, h⟩ := h
  split at h
  · rw [pure_ok] at h
    cases h
    exact ⟨rfl, rfl, rfl⟩
  · simp only [dirCreated, bind_ok, pure_ok] at h
    obtain ⟨s1, ⟨disk2, -, disk3, -, disk4, -, rfl⟩, h⟩ := h
    cases h
    exact ⟨rfl, rfl, rfl⟩

/-- `sys_mkdir` keeps what is kept by opening and closing inodes and says something of the cache and
the heap only. -/
theorem CacheInvariant.mkdirPath {I : Fs → Prop} (inv : CacheInvariant part me I)
    (same : ∀ {s t : Fs}, t.openInodes = s.openInodes → t.pool = s.pool → t.mallocs = s.mallocs → I s → I t) {path : List Byte}
    {r : Option Unit} (h : mkdirPath part me s path = .ok (r, t)) (holds : I s) : I t := by
  simp only [Sparrow.mkdirPath] at h
  split at h
  · rw [pure_ok] at h
    cases h
    exact inv.mallocs holds
  simp only [bind_ok, Prod.exists] at h
  obtain ⟨sr, s1, search, h⟩ := h
  have holds1 := inv.searchFile search (inv.mallocs holds)
  split at h
  · simp only [bind_ok, pure_ok] at h
    obtain ⟨s2, closed, h⟩ := h
    cases h
    exact dirClose_keeps inv.closes closed holds1
  simp only [bind_ok] at h
  obtain ⟨_, -, _, -, h⟩ := h
  split at h
  · simp only [bind_ok, pure_ok] at h
    obtain ⟨s2, closed, h⟩ := h
    cases h
    exact dirClose_keeps inv.closes closed holds1
  · simp only [bind_ok, pure_ok, Prod.exists] at h
    obtain ⟨ok, s2, made, s3, closed, h⟩ := h
    cases h
    obtain ⟨list, pool, heap⟩ := makeDir_cache made
    exact dirClose_keeps inv.closes closed (same list pool heap holds1)

theorem mkdirPath_held {path : List Byte} {r : Option Unit} (h : mkdirPath part me s path = .ok (r, t))
    (held : KernelHeld s) : KernelHeld t :=
  cacheInvariant_held.mkdirPath (fun list pool _ held => held.of_eq list pool) h held

theorem rmdirPath_held {path : List Byte} {r : Option Unit} (h : rmdirPath part me s path = .ok (r, t))
    (held : KernelHeld s) : KernelHeld t := by
  simp only [rmdirPath, bind_ok, assertThat_ok, exists_const, Prod.exists] at h
  obtain ⟨sr, s1, search, -, h⟩ := h
  have held1 := cacheInvariant_held.searchFile search held
  split at h
  · simp only [bind_ok, pure_ok] at h
    obtain ⟨s2, closed, h⟩ := h
    cases h
    exact closeParent_held closed held1
  split at h
  · simp only [bind_ok, pure_ok] at h
    obtain ⟨s2, closed, h⟩ := h
    cases h
    exact closeParent_held closed held1
  simp only [bind_ok, Prod.exists] at h
  obtain ⟨dir, s2, opened, h⟩ := h
  have held2 := cacheInvariant_held.dirOpen opened held1
  split at h
  · simp only [bind_ok, pure_ok, Prod.exists] at h
    obtain ⟨ok, s3, removed, s4, closed, s5, closed', h⟩ := h
    cases h
    exact closeParent_held closed' (dirClose_held closed (dirRemove_held removed held2))
  · simp only [bind_ok, pure_ok, Prod.exists] at h
    obtain ⟨ok, s3, same, s4, closed, s5, closed', h⟩ := h
    cases same
    cases h
    exact closeParent_held closed' (dirClose_held closed held2)

theorem opendirPath_held {name : List Byte} {r : Option Dir} (h : opendirPath part me s name = .ok (r, t))
    (held : KernelHeld s) : KernelHeld t := by
  simp only [opendirPath, bind_ok, assertThat_ok, exists_const] at h
  obtain ⟨-, h⟩ := h
  split at h
  · rw [pure_ok] at h
    cases h
    exact held
  simp only [bind_ok, Prod.exists] at h
  obtain ⟨sr, s1, search, h⟩ := h
  have held1 := cacheInvariant_held.searchFile search held
  split at h
  · simp only [bind_ok, pure_ok, Prod.exists] at h
    obtain ⟨dir, s2, opened, s3, closed, h⟩ := h
    cases h
    exact closeParent_held closed (cacheInvariant_held.dirOpen opened held1)
  · simp only [bind_ok, pure_ok] at h
    obtain ⟨s2, closed, h⟩ := h
    cases h
    exact closeParent_held closed held1

theorem statPath_held {path : List Byte} {r : Option Stat} (h : statPath part me s path = .ok (r, t))
    (held : KernelHeld s) : KernelHeld t := by
  simp only [statPath] at h
  split at h
  · rw [pure_ok] at h
    cases h
    exact held
  simp only [bind_ok, Prod.exists] at h
  obtain ⟨sr, s1, search, h⟩ := h
  have held1 := cacheInvariant_held.searchFile search held
  split at h
  · simp only [bind_ok, pure_ok] at h
    obtain ⟨s2, closed, h⟩ := h
    cases h
    exact closeParent_held closed held1
  · simp only [bind_ok, pure_ok, Prod.exists] at h
    obtain ⟨addr, s2, opened, s3, closed, s4, closed', h⟩ := h
    cases h
    exact closeParent_held closed' (inodeClose_held closed (inodeOpen_held opened held1))

/-- Climbing to the root opens and closes directories. -/
theorem CacheInvariant.climb {I : Fs → Prop} (inv : CacheInvariant part me I) : ∀ (fuel : Nat) {child : Nat} {path : List Byte}
    {s : Fs} {r : Option (List Byte)}, climb part me fuel child path s = .ok (r, t) → I s → I t := by
  intro fuel
  induction fuel with
  | zero => exact fun h _ => (throw_ok.1 h).elim
  | succ fuel ih =>
    intro child path s r h holds
    rw [Sparrow.climb] at h
    split at h
    · rw [pure_ok] at h
      cases h
      exact holds
    simp only [getParentDirInodeNr, getChildDirName, bind_ok, assertThat_ok, pure_ok, exists_const, Prod.exists] at h
    obtain ⟨parent, s1, ⟨addr, s2, opened, -, s3, closed, _, -, -, e⟩, found, s4, ⟨addr', s5, opened', _, -, s6, closed', _, -, e'⟩, h⟩ := h
    cases e
    cases e'
    have holds1 := inv.closes closed' (inv.opens opened' (inv.closes closed (inv.opens opened holds)))
    split at h
    · rw [pure_ok] at h
      cases h
      exact holds1
    · exact ih h holds1

/-- **`sys_getcwd`** keeps what opening and closing inodes keeps. -/
theorem CacheInvariant.sysGetcwd {I : Fs → Prop} {pid size : Nat} {σ σ' : Sys} {buf : Option Nat} {r : Option (List Byte)}
    (inv : CacheInvariant part (σ.heapOf pid) I) (h : sysGetcwd part pid σ buf size = .ok (r, σ')) (holds : I σ.fs) : I σ'.fs := by
  simp only [Sparrow.sysGetcwd, bind_ok, assertThat_ok, exists_const] at h
  obtain ⟨-, h⟩ := h
  split at h
  · rw [pure_ok] at h
    cases h
    exact inv.mallocs holds
  simp only [bind_ok, assertThat_ok, exists_const] at h
  obtain ⟨-, h⟩ := h
  split at h
  · simp only [bind_ok, defined_ok, pure_ok, exists_const] at h
    obtain ⟨-, h⟩ := h
    cases h
    exact inv.mallocs holds
  simp only [bind_ok, Prod.exists] at h
  obtain ⟨found, s, climbed, h⟩ := h
  have holds1 := inv.climb _ climbed (inv.mallocs holds)
  split at h
  · rw [pure_ok] at h
    cases h
    exact holds1
  · simp only [bind_ok, assertThat_ok, defined_ok, pure_ok, exists_const] at h
    obtain ⟨-, -, h⟩ := h
    cases h
    exact holds1

end Paths

section Runs

variable {part : Partition} {σ σ' : Sys} {pid : Nat} {r : Int}

theorem dropPipe_held {s t : Fs} {g : Nat} (h : dropPipe s g = .ok t) (held : KernelHeld s) : KernelHeld t := by
  simp only [dropPipe] at h
  split at h
  · simp only [bind_ok, assertThat_ok, pure_ok, exists_const] at h
    obtain ⟨-, rfl⟩ := h
    exact held.of_eq rfl rfl
  · rw [pure_ok] at h
    rw [← h]
    exact held.of_eq rfl rfl

theorem sysClose_held {fd : Int} (h : sysClose pid σ fd = .ok (r, σ')) (held : KernelHeld σ.fs) : KernelHeld σ'.fs := by
  simp only [sysClose] at h
  split at h
  · rw [pure_ok] at h
    cases h
    exact held
  · simp only [closeSlot, bind_ok, pure_ok] at h
    obtain ⟨g, -, s, closed, h⟩ := h
    cases h
    show KernelHeld s
    split at closed
    · exact dropPipe_held closed held
    · exact fileClose_held closed held

theorem fileWrite_held {me : Option Nat} {s t : Fs} {g count : Nat} {buf : Image} {n : Option Nat}
    (h : fileWrite part me s g buf count = .ok (n, t)) (held : KernelHeld s) : KernelHeld t := by
  simp only [fileWrite] at h
  split at h
  · simp only [bind_ok, defined_ok, exists_const] at h
    obtain ⟨-, h⟩ := h
    split at h
    · rw [pure_ok] at h
      cases h
      exact held
    split at h
    · rw [pure_ok] at h
      cases h
      exact held.of_eq rfl rfl
    split at h
    · rw [pure_ok] at h
      cases h
      exact held.of_eq rfl rfl
    · simp only [bind_ok, pure_ok, Prod.exists] at h
      obtain ⟨n', v, pos, -, h⟩ := h
      cases h
      exact held.of_eq rfl rfl
  · exact (throw_ok.1 h).elim

theorem sysWrite_held {fd : Int} {buf : Image} {count : Nat} (h : sysWrite part pid σ fd buf count = .ok (r, σ'))
    (held : KernelHeld σ.fs) : KernelHeld σ'.fs := by
  simp only [sysWrite] at h
  split at h
  · rw [pure_ok] at h
    cases h
    exact held
  simp only [bind_ok] at h
  obtain ⟨g, -, h⟩ := h
  split at h
  · simp only [pipeWrite, bind_ok, defined_ok, pure_ok, exists_const] at h
    obtain ⟨-, ioq, -, h⟩ := h
    cases h
    exact held
  split at h
  · simp only [consoleWrite, bind_ok, pure_ok] at h
    obtain ⟨_, -, h⟩ := h
    cases h
    exact held
  · simp only [sysWriteFile] at h
    split at h
    · simp only [bind_ok, pure_ok, Prod.exists] at h
      obtain ⟨n, s, written, h⟩ := h
      cases h
      exact fileWrite_held written held
    · rw [pure_ok] at h
      cases h
      exact held

theorem updateInodeOpenCnt_held {me : Option Nat} {fdTable : Nat → Int} {s t : Fs} {i : Nat}
    (h : updateInodeOpenCnt me fdTable s i = .ok t) (held : KernelHeld s) : KernelHeld t := by
  simp only [updateInodeOpenCnt, bind_ok, assertThat_ok, exists_const] at h
  obtain ⟨-, h⟩ := h
  split at h
  · rw [pure_ok] at h
    rw [← h]
    exact held
  simp only [bind_ok] at h
  obtain ⟨g, -, h⟩ := h
  split at h
  · rw [pure_ok] at h
    rw [← h]
    exact held.of_eq rfl rfl
  split at h
  · simp only [bind_ok, defined_ok, pure_ok, exists_const] at h
    obtain ⟨-, rfl⟩ := h
    exact held.of_eq rfl rfl
  · exact (throw_ok.1 h).elim

theorem getPages_held : ∀ (k : Nat) {s : Fs}, KernelHeld s → KernelHeld (getPages k s).2 := by
  intro k
  induction k with
  | zero => exact fun held => held
  | succ k ih =>
    intro s held
    unfold getPages
    split
    · exact ih (held.of_eq rfl rfl)
    · exact held.of_eq rfl rfl

theorem sysFork_held {child : Nat} (h : sysFork pid child σ = .ok (r, σ')) (held : KernelHeld σ.fs) :
    KernelHeld σ'.fs := by
  have held1 := getPages_held 1 held
  have held2 := getPages_held 3 held1
  simp only [sysFork] at h
  split at h
  · rw [pure_ok] at h
    cases h
    exact held1
  simp only [bind_ok, assertThat_ok, exists_const] at h
  obtain ⟨-, h⟩ := h
  split at h
  · rw [pure_ok] at h
    cases h
    exact held2
  · simp only [bind_ok, pure_ok] at h
    obtain ⟨s, counted, h⟩ := h
    cases h
    exact foldlM_invariant (fun _ _ _ => updateInodeOpenCnt_held) _ counted held2

theorem sysExit_held (h : sysExit pid σ = .ok σ') (held : KernelHeld σ.fs) : KernelHeld σ'.fs := by
  simp only [sysExit, bind_ok, assertThat_ok, defined_ok, pure_ok, exists_const] at h
  obtain ⟨-, -, σ1, released, rfl⟩ := h
  show KernelHeld σ1.fs
  refine foldlM_invariant (I := fun σ => KernelHeld σ.fs) (fun σ i σ' turn held => ?_) _ released held
  simp only [releaseDescriptor] at turn
  split at turn
  · rw [pure_ok] at turn
    rw [← turn]
    exact held
  simp only [bind_ok] at turn
  obtain ⟨g, -, turn⟩ := turn
  split at turn
  · simp only [bind_ok, pure_ok] at turn
    obtain ⟨s, dropped, rfl⟩ := turn
    exact dropPipe_held dropped held
  · simp only [bind_ok, pure_ok, Prod.exists] at turn
    obtain ⟨_, σ2, closed, rfl⟩ := turn
    exact sysClose_held closed held

theorem Fs.Moved.held {s t : Fs} (moved : s.Moved t) (held : KernelHeld s) : KernelHeld t := by
  obtain ⟨g, pos, mallocs, rfl⟩ := moved
  exact held.of_eq rfl rfl

theorem sysRead_held {kbdBuf kbdBuf' : Ioqueue} {fd : Int} {buf : Option Image} {dst : Image} {count : Nat}
    (h : sysRead pid σ kbdBuf fd buf count = .ok (r, dst, kbdBuf', σ')) (held : KernelHeld σ.fs) : KernelHeld σ'.fs := by
  obtain ⟨s, pipes, rfl, moved⟩ := sysRead_moved h
  exact moved.held held

theorem sysLseek_held {fd offset : Int} {whence : Nat} (h : sysLseek pid σ fd offset whence = .ok (r, σ'))
    (held : KernelHeld σ.fs) : KernelHeld σ'.fs := by
  obtain ⟨s, rfl, moved⟩ := sysLseek_moved h
  exact moved.held held

/-- What `load` does with the program keeps the cached inodes in the kernel pool. -/
theorem loadSteps_held {fd : Int} : ∀ (steps : List LoadStep) {σ : Sys}, steps.foldlM (loadStep pid fd) σ = .ok σ' →
    KernelHeld σ.fs → KernelHeld σ'.fs := by
  intro steps
  induction steps with
  | nil =>
    intro σ h held
    rw [List.foldlM_nil, pure_ok] at h
    rw [← h]
    exact held
  | cons step rest ih =>
    intro σ h held
    rw [List.foldlM_cons] at h
    simp only [bind_ok] at h
    obtain ⟨σ1, done, h⟩ := h
    refine ih h ?_
    cases step with
    | lseek offset =>
      simp only [loadStep, bind_ok, pure_ok, Prod.exists] at done
      obtain ⟨_, _, sought, rfl⟩ := done
      exact sysLseek_held sought held
    | read count =>
      simp only [loadStep, bind_ok, pure_ok, Prod.exists] at done
      obtain ⟨_, _, _, _, read, rfl⟩ := done
      exact sysRead_held read held

theorem sysExecv_held {path : List Byte} {steps : List LoadStep} {loaded : Bool}
    (h : sysExecv part pid σ path steps loaded = .ok (r, σ')) (held : KernelHeld σ.fs) : KernelHeld σ'.fs := by
  simp only [sysExecv, sysOpen, bind_ok, pure_ok, Prod.exists] at h
  obtain ⟨_, σ1, ⟨fd, s, table, opened, e⟩, h⟩ := h
  cases e
  have held1 : KernelHeld s := openPath_held opened held fun reaches => absurd rfl reaches.2.1
  split at h
  · rw [pure_ok] at h
    cases h
    exact held1
  · simp only [bind_ok, pure_ok, Prod.exists] at h
    obtain ⟨σ2, done, _, σ3, closed, h⟩ := h
    cases h
    exact sysClose_held closed (loadSteps_held steps done held1)

theorem sysOpendir_held {name : List Byte} {ptr : Option Nat} (h : sysOpendir part pid σ name = .ok (ptr, σ'))
    (held : KernelHeld σ.fs) : KernelHeld σ'.fs := by
  simp only [sysOpendir, bind_ok, Prod.exists] at h
  obtain ⟨dir, s, done, h⟩ := h
  have held1 := opendirPath_held done held
  split at h
  · cases h
    exact held1
  · split at h
    · cases h
      exact held1
    · cases h
      exact held1

theorem sysClosedir_held {dir : Option Nat} (h : sysClosedir pid σ dir = .ok (r, σ')) (held : KernelHeld σ.fs) :
    KernelHeld σ'.fs := by
  simp only [sysClosedir] at h
  split at h
  · cases h
    exact held
  split at h
  · cases h
    exact held
  split at h
  · exact (throw_ok.1 h).elim
  · simp only [bind_ok, pure_ok] at h
    obtain ⟨s, closed, h⟩ := h
    cases h
    exact dirClose_held closed held

theorem sysChdir_held {path : List Byte} (h : sysChdir part pid σ path = .ok (r, σ')) (held : KernelHeld σ.fs) :
    KernelHeld σ'.fs := by
  simp only [sysChdir, bind_ok, Prod.exists] at h
  obtain ⟨sr, s, search, s1, closed, h⟩ := h
  have held1 := closeParent_held closed (cacheInvariant_held.searchFile search held)
  split at h
  · cases h
    exact held1
  · cases h
    exact held1

theorem sysPipe_held {fds : Int × Int} (h : sysPipe pid σ = .ok (r, fds, σ')) (held : KernelHeld σ.fs) : KernelHeld σ'.fs := by
  simp only [sysPipe] at h
  split at h
  · exact (throw_ok.1 h).elim
  · simp only [bind_ok, mustMalloc_ok, pure_ok] at h
    obtain ⟨s, ⟨-, rfl⟩, h⟩ := h
    cases h
    exact held.of_eq rfl rfl

/-- One call keeps the cached inodes in the kernel pool. -/
theorem exec_held {call : Call} (h : exec part pid σ call = .ok (r, σ')) (held : KernelHeld σ.fs)
    (kernel : ¬ CreatesInUserHeap part σ pid call) : KernelHeld σ'.fs := by
  cases call with
  | «open» path flags =>
    simp only [exec, sysOpen, bind_ok, pure_ok, Prod.exists] at h
    obtain ⟨fd, s, table, opened, h⟩ := h
    cases h
    refine openPath_held opened held fun reaches => ?_
    unfold Sys.heapOf
    rw [if_neg fun user => kernel ⟨user, path, flags, rfl, reaches⟩]
  | close fd => exact sysClose_held h held
  | read kbdBuf fd buf count =>
    simp only [exec, bind_ok, pure_ok, Prod.exists] at h
    obtain ⟨r', _, _, σ1, read, h⟩ := h
    cases h
    exact sysRead_held read held
  | write fd buf count => exact sysWrite_held h held
  | lseek fd offset whence => exact sysLseek_held h held
  | unlink path =>
    simp only [exec, sysUnlink, bind_ok, pure_ok, Prod.exists] at h
    obtain ⟨r', s, done, h⟩ := h
    cases h
    exact unlinkPath_held done held
  | mkdir path =>
    simp only [exec, sysMkdir, bind_ok, pure_ok, Prod.exists] at h
    obtain ⟨r', s, done, h⟩ := h
    cases h
    exact mkdirPath_held done held
  | rmdir path =>
    simp only [exec, sysRmdir, bind_ok, pure_ok, Prod.exists] at h
    obtain ⟨r', s, done, h⟩ := h
    cases h
    exact rmdirPath_held done held
  | opendir name =>
    simp only [exec, bind_ok, pure_ok, Prod.exists] at h
    obtain ⟨ptr, σ1, done, h⟩ := h
    cases h
    exact sysOpendir_held done held
  | readdir dir place =>
    simp only [exec, bind_ok, pure_ok, Prod.exists] at h
    obtain ⟨e, _, -, h⟩ := h
    cases h
    exact held
  | getcwd buf size =>
    simp only [exec, bind_ok, pure_ok, Prod.exists] at h
    obtain ⟨path, σ1, got, h⟩ := h
    cases h
    exact cacheInvariant_held.sysGetcwd got held
  | closedir dir => exact sysClosedir_held h held
  | chdir path => exact sysChdir_held h held
  | stat path =>
    simp only [exec, sysStat, bind_ok, pure_ok, Prod.exists] at h
    obtain ⟨r1, r2, σ1, ⟨r3, s, done, h1⟩, h⟩ := h
    cases h1
    cases h
    exact statPath_held done held
  | pipe =>
    simp only [exec, bind_ok, pure_ok, Prod.exists] at h
    obtain ⟨r1, fd0, fd1, σ1, piped, h⟩ := h
    cases h
    exact sysPipe_held piped held
  | fdRedirect old new =>
    simp only [exec, sysFdRedirect, bind_ok, defined_ok, pure_ok, exists_const] at h
    obtain ⟨σ1, ⟨-, rfl⟩, h⟩ := h
    cases h
    exact held
  | fork child => exact sysFork_held h held
  | execv path steps loaded => exact sysExecv_held h held
  | exit =>
    simp only [exec, bind_ok, pure_ok] at h
    obtain ⟨σ1, exited, h⟩ := h
    cases h
    exact sysExit_held exited held

/-- After mounting, the cache holds the root directory and that is in the kernel pool. -/
theorem mount_held {disk : Image} {startLba secCnt : Nat} {s s' : Fs}
    (mount : mountPartition disk startLba secCnt = .ok (part, s)) (root : openRootDir part s = .ok s') : KernelHeld s' := by
  simp only [mountPartition, bind_ok, pure_ok] at mount
  obtain ⟨_, -, _, -, _, -, h⟩ := mount
  cases h
  simp only [openRootDir, bind_ok, pure_ok, Prod.exists] at root
  obtain ⟨addr, s1, opened, rfl⟩ := root
  exact (inodeOpen_held opened (fun a mem => absurd mem List.not_mem_nil)).of_eq rfl rfl

/-- **Cached inodes lie in the kernel pool.** Along every run of system calls on a mounted
partition in which no user process gets as far as `file_create`, every inode of the cache is
in the kernel pool, every task may dereference it, and the last `inode_close` of any task
frees it without a failed assertion. -/
theorem openInodes_in_kernelPool {disk : Image} {startLba secCnt : Nat} {s s' : Fs}
    (mount : mountPartition disk startLba secCnt = .ok (part, s)) (root : openRootDir part s = .ok s')
    (run : Run part (fun σ pid call _ => ¬ CreatesInUserHeap part σ pid call) (bootSys s') σ') :
    ∀ a ∈ σ'.fs.openInodes, σ'.fs.pool a = none ∧
      ∀ me, Reachable me σ'.fs a ∧ ∃ t, inodeClose me σ'.fs a = .ok t := by
  have held : KernelHeld σ'.fs :=
    run.invariant (I := fun σ => KernelHeld σ.fs) (fun _ _ _ _ _ held kernel h => exec_held h held kernel)
      (mount_held mount root)
  exact fun a mem => ⟨held a mem, fun _ => held.inodeClose_returns mem⟩

/-- A test that is true of calls that create no file in a user heap. -/
def noUserCreateTest (σ : Sys) (pid : Nat) : Call → Bool
  | .open _ flags => !(σ.procs pid).user || decide (flags &&& oCreat = 0)
  | _ => true

theorem noUserCreateTest_sound {call : Call} (h : noUserCreateTest σ pid call = true) :
    ¬ CreatesInUserHeap part σ pid call := by
  rintro ⟨user, path, flags, rfl, -, create, -⟩
  simp only [noUserCreateTest, user, Bool.not_true, Bool.false_or, decide_eq_true_eq] at h
  exact create h

/-- The main thread creates a file and leaves it open; `init` opens it, too. -/
theorem openInodes_in_kernelPool_main :
    ∃ disk part s s' σ', mountPartition disk 1 620 = .ok (part, s) ∧ openRootDir part s = .ok s' ∧
      Run part (fun σ pid call _ => ¬ CreatesInUserHeap part σ pid call) (bootSys s') σ' ∧
      σ'.fs.openInodes.length = 2 ∧
      ∀ a ∈ σ'.fs.openInodes, σ'.fs.pool a = none ∧ ∀ me, Reachable me σ'.fs a ∧ ∃ t, inodeClose me σ'.fs a = .ok t := by
  have ran : returns (freshRun 620 (fun σ pid call _ => noUserCreateTest σ pid call)
      [(2, .open pathF oCreat), (1, .open pathF 0)]) (fun x => decide (x.2.fs.openInodes.length = 2)) = true := by
    decide
  obtain ⟨⟨part, σ'⟩, ran, two⟩ := returns_true.1 ran
  obtain ⟨s', formatted, ran⟩ := freshRun_ok ran
  obtain ⟨disk, s, mounted, root⟩ := formatAndMount_mounted formatted
  have run : Run part (fun σ pid call _ => ¬ CreatesInUserHeap part σ pid call) (bootSys s') σ' :=
    runCalls_run (fun _ _ _ _ => noUserCreateTest_sound) _ _ ran
  exact ⟨disk, part, s, s', σ', mounted, root, run, by simpa using two, openInodes_in_kernelPool mounted root run⟩

/-- A user process creates a file: its inode is in the cache and in the heap of the process. -/
theorem userCreate_in_userHeap :
    ¬ ∀ (disk : Image) (startLba secCnt : Nat) (part : Partition) (s s' : Fs) (σ' : Sys),
      mountPartition disk startLba secCnt = .ok (part, s) → openRootDir part s = .ok s' →
      Run part (fun σ pid _ _ => pid ∈ σ.live) (bootSys s') σ' → ∀ a ∈ σ'.fs.openInodes, σ'.fs.pool a = none := by
  intro claim
  have ran : returns (freshRun 620 (fun σ pid _ _ => decide (pid ∈ σ.live)) [(1, .open pathF oCreat)])
      (fun x => x.2.fs.openInodes.any fun a => decide (x.2.fs.pool a = some 1)) = true := by decide
  obtain ⟨⟨part, σ'⟩, ran, found⟩ := returns_true.1 ran
  obtain ⟨s', formatted, ran⟩ := freshRun_ok ran
  obtain ⟨disk, s, mounted, root⟩ := formatAndMount_mounted formatted
  simp only [List.any_eq_true, decide_eq_true_eq] at found
  obtain ⟨a, mem, mine⟩ := found
  have kernel := claim disk 1 620 part s s' σ' mounted root
    (runCalls_run (fun _ _ _ _ test => by simpa using test) _ _ ran) a mem
  rw [mine] at kernel
  cases kernel

end Runs

end Sparrow
