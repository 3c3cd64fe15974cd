import Sparrow.Userprog.WorkingDir
import Sparrow.Volume.Calls

/-!
# The volume over whole runs

Tasks open, read, write and close files, make and remove directories, list them and look things up, in
any order. Where no call meets one of the known defects, every state of the run has a volume in
order (`volume_consistent`) and a cache with one object for each inode somebody has open
(`cache_exact`), and what was written to a file stays in it until the file is removed (`file_durable`).
-/

namespace Sparrow
set_option autoImplicit false

/-- The directories `sys_opendir` opened and nobody has closed. -/
def dirHandles (dirs : List (Nat × Dir)) (a : Nat) : Nat := dirs.countP fun x => decide (x.2.inode = a)

/-- A file below the root is opened, and not created: the directory it is in stays open. -/
def LeavesParent : Call → Prop
  | .open pathname flags => flags &&& oCreat = 0 ∧ (pathNames pathname).length ≠ 1
  | _ => False

/-- The file behind slot `g` has its record in one sector, as the `io_buf` of `file_write` wants it. -/
def FileOneSector (s : Fs) (g : Nat) : Prop := ∀ a, (s.fileTable g).fdInode = .inode a → OneSector ((s.inodes a).iNo % 256)

/-- The calls on the volume. Paths are strings, and no count of an inode is near the largest word.
A file is opened and written with success, and no write runs over its buffer; what is created is new; a directory is
removed while nobody has it open, by a path that does not end in `.`. -/
def VolumeCall (part : Partition) (σ : Sys) (pid : Nat) (call : Call) (r : Int) : Prop :=
  (∀ a ∈ σ.fs.openInodes, (σ.fs.inodes a).iOpenCnts < 2 ^ 31) ∧ match call with
    | .open pathname flags => 0#8 ∉ pathname ∧
        (flags &&& oCreat = 0 → r ≠ -1) ∧ (flags &&& oCreat ≠ 0 → MayCreate part (σ.heapOf pid) σ.fs pathname)
    | .mkdir pathname => 0#8 ∉ pathname ∧ MayCreate part (σ.heapOf pid) σ.fs.malloc pathname
    | .rmdir pathname => 0#8 ∉ pathname ∧ ∀ f, Removable part (σ.heapOf pid) σ.fs pathname f →
        (pathNames pathname).getLast? ≠ some dot ∧ ∀ a ∈ σ.fs.openInodes, (σ.fs.inodes a).iNo ≠ f
    | .unlink pathname | .opendir pathname | .chdir pathname | .stat pathname => 0#8 ∉ pathname
    | .write fd _ _ => r ≠ -1 ∧ (fd ≠ 1 → FileOneSector σ.fs ((σ.procs pid).fdTable fd.toNat).toNat)
    | .read _ _ _ _ | .lseek _ _ _ | .readdir _ _ | .close _ | .closedir _ => True
    | _ => False

/-- The inode bitmap says that inode `m` is in use. -/
def Allocated (s : Fs) (m : Nat) : Prop := m < 4096 ∧ s.inodeBitmap.Set m

/-- What a call writes to each file. -/
def wrote (σ : Sys) (pid : Nat) : Call → Nat → List Byte
  | .write fd buf count => if fd = 1 then noBytes else slotBytes σ.fs ((σ.procs pid).fdTable fd.toNat).toNat buf count
  | _ => noBytes

/-- A run with the bytes it writes to file `f`. -/
inductive Appends (part : Partition) (ok : Sys → Nat → Call → Int → Prop) (f : Nat) (σ : Sys) : List Byte → Sys → Prop
  | refl : Appends part ok f σ [] σ
  | step {bytes : List Byte} {σ₁ σ₂ : Sys} {pid : Nat} {call : Call} {r : Int} (before : Appends part ok f σ bytes σ₁)
      (allowed : ok σ₁ pid call r) (ran : exec part pid σ₁ call = .ok (r, σ₂)) :
      Appends part ok f σ (bytes ++ wrote σ₁ pid call f) σ₂

/-- The call leaves inode `f` in use. -/
def Spares (part : Partition) (f : Nat) (σ : Sys) (pid : Nat) (call : Call) (r : Int) : Prop :=
  ∀ σ', exec part pid σ call = .ok (r, σ') → Allocated σ'.fs f

/-- What a check of the volume would ask for, `dir` being the inodes that are directories. -/
structure Consistent (part : Partition) (n : Nat) (s : Fs) (dir : Nat → Prop) : Prop where
  root : Allocated s 0 ∧ dir 0
  record : ∀ m, Allocated s m → m < 256 ∧ (slot part s.disk m).iNo = m
  block : ∀ m k, Allocated s m → k < 141 → blockRef s.disk (slot part s.disk m) k ≠ 0 →
    DataBlock part n s.blockBitmap (blockRef s.disk (slot part s.disk m) k)
  once : ∀ m m' k k', Allocated s m → Allocated s m' → k < 141 → k' < 141 → blockRef s.disk (slot part s.disk m) k ≠ 0 →
    blockRef s.disk (slot part s.disk m) k = blockRef s.disk (slot part s.disk m') k' → m = m' ∧ k = k'
  length : ∀ m, Allocated s m → ¬ dir m → Filled s.disk (slot part s.disk m) (fileBlocks (slot part s.disk m))
  slots : ∀ m k j, Allocated s m → dir m → k < 140 → j < 21 → blockRef s.disk (slot part s.disk m) k ≠ 0 →
    (entryAt s.disk (slot part s.disk m) k j).Dead ∨ ∃ x, ItemAt (nodeAt part s.disk s.blockBitmap m) k j x
  size : ∀ m, Allocated s m → dir m → Sized (nodeAt part s.disk s.blockBitmap m)
  dot : ∀ m, Allocated s m → dir m → ∃ x, ItemAt (nodeAt part s.disk s.blockBitmap m) 0 0 x ∧ x.name = .dot ∧ x.iNo = m
  dotDot : ∀ m, Allocated s m → dir m → ∃ x, ItemAt (nodeAt part s.disk s.blockBitmap m) 0 1 x ∧ x.name = .dotDot ∧
    Allocated s x.iNo ∧ dir x.iNo ∧ (m = 0 ∧ x.iNo = 0 ∨ ∃ y, entries part s.disk s.blockBitmap x.iNo y ∧ y.iNo = m)
  names : ∀ m x y, Allocated s m → dir m → entries part s.disk s.blockBitmap m x → entries part s.disk s.blockBitmap m y →
    x.name = y.name → x = y
  named : ∀ m x, Allocated s m → dir m → entries part s.disk s.blockBitmap m x →
    Allocated s x.iNo ∧ x.iNo ≠ 0 ∧ (x.isDir = true ↔ dir x.iNo)
  alone : ∀ m m' x y, Allocated s m → dir m → Allocated s m' → dir m' → entries part s.disk s.blockBitmap m x →
    entries part s.disk s.blockBitmap m' y → x.iNo = y.iNo → m = m' ∧ x = y

/-- The cache has one object for each inode that a slot of the file table or a directory somebody opened
refers to, and for the root; it is what the disk says, and counts these references. -/
structure CacheExact (part : Partition) (σ : Sys) : Prop where
  nodup : σ.fs.openInodes.Nodup
  used : ∀ a, a ∈ σ.fs.openInodes ↔ 0 < slotHandles σ.fs.fileTable a + dirHandles σ.dirs a ∨ a = σ.fs.rootDir
  one : ∀ a ∈ σ.fs.openInodes, ∀ a' ∈ σ.fs.openInodes, (σ.fs.inodes a).iNo = (σ.fs.inodes a').iNo → a = a'
  stored : ∀ a ∈ σ.fs.openInodes, Allocated σ.fs (σ.fs.inodes a).iNo ∧
    SameStored (σ.fs.inodes a) (slot part σ.fs.disk (σ.fs.inodes a).iNo)
  counts : ∀ a ∈ σ.fs.openInodes, (σ.fs.inodes a).iOpenCnts =
    slotHandles σ.fs.fileTable a + dirHandles σ.dirs a + if a = σ.fs.rootDir then 1 else 0

/-- What every such run keeps, with `L` handles left behind. -/
structure Volume (part : Partition) (n : Nat) (σ : Sys) (sh : Shape) (L : Nat → Nat) : Prop where
  mounted : Mounted part n σ.fs sh (fun a => dirHandles σ.dirs a + L a)
  notRoot : ∀ x ∈ σ.dirs, x.2.isRoot = false
  keys : (σ.dirs.map Prod.fst).Nodup
  fresh : ∀ x ∈ σ.dirs, x.1 < σ.nextDir

section Handles

variable {dirs : List (Nat × Dir)} {ptr a : Nat} {d : Dir}

theorem dirHandles_cons : dirHandles ((ptr, d) :: dirs) = bump (dirHandles dirs) d.inode := by
  funext a
  by_cases e : a = d.inode
  · simp [dirHandles, e, bump_self]
  · simp [dirHandles, bump_of_ne e, Ne.symm e]

/-- A key is at one place only. -/
theorem dirHandles_filter (keys : (dirs.map Prod.fst).Nodup) (at_ : dirs.lookup ptr = some d) :
    dirHandles dirs = bump (dirHandles (dirs.filter fun x => x.1 ≠ ptr)) d.inode := by
  induction dirs with
  | nil => cases at_
  | cons first rest ih =>
    obtain ⟨key, e⟩ := first
    rw [List.map_cons, List.nodup_cons] at keys
    by_cases same : key = ptr
    · subst same
      simp only [List.lookup_cons_self, Option.some.injEq] at at_
      subst at_
      have others : (rest.filter fun x => x.1 ≠ key) = rest := by
        refine List.filter_eq_self.2 fun x mem => decide_eq_true ?_
        rintro rfl
        exact keys.1 (List.mem_map.2 ⟨x, mem, rfl⟩)
      rw [dirHandles_cons, List.filter_cons_of_neg (by simp), others]
    · rw [List.lookup_cons, beq_false_of_ne (Ne.symm same)] at at_
      rw [dirHandles_cons, List.filter_cons_of_pos (by simpa using same), dirHandles_cons, ih keys.2 at_, bump_comm]

theorem mem_of_lookup (at_ : dirs.lookup ptr = some d) : (ptr, d) ∈ dirs := by
  induction dirs with
  | nil => cases at_
  | cons first rest ih =>
    obtain ⟨key, e⟩ := first
    by_cases same : key = ptr
    · subst same
      simp only [List.lookup_cons_self, Option.some.injEq] at at_
      rw [at_]
      exact List.mem_cons_self
    · rw [List.lookup_cons, beq_false_of_ne (Ne.symm same)] at at_
      exact List.mem_cons_of_mem _ (ih at_)

end Handles

section Steps

variable {part : Partition} {n pid : Nat} {σ σ' : Sys} {sh sh' : Shape} {L : Nat → Nat} {t : Fs}

theorem Volume.roomy (v : Volume part n σ sh L) (small : ∀ a ∈ σ.fs.openInodes, (σ.fs.inodes a).iOpenCnts < 2 ^ 31) :
    Roomy (fun a => dirHandles σ.dirs a + L a) := by
  intro a
  show dirHandles σ.dirs a + L a + 40 < 2 ^ 32
  by_cases mem : a ∈ σ.fs.openInodes
  · have count := v.mounted.inv.cache.counts a mem
    have := small a mem
    omega
  · have none := mt (v.mounted.inv.cache.held a).2 mem
    omega

/-- A call that opens and closes no directory. -/
theorem Volume.of_mounted (v : Volume part n σ sh L) (m : Mounted part n t sh' (fun a => dirHandles σ.dirs a + L a)) :
    Volume part n { σ with fs := t } sh' L :=
  ⟨m, v.notRoot, v.keys, v.fresh⟩

theorem intResult_ne {r : Option Nat} (h : intResult r ≠ -1) : ∃ k, r = some k := by
  cases r with
  | none => exact absurd rfl h
  | some k => exact ⟨k, rfl⟩

/-- **`sys_open`**. -/
theorem Volume.open (lay : Layout part n) (v : Volume part n σ sh L) {path : List Byte} {flags : Nat} {r : Int}
    (allowed : VolumeCall part σ pid (.open path flags) r) (ran : sysOpen part pid σ path flags = .ok (r, σ')) :
    ∃ sh' L', Volume part n σ' sh' L' ∧ (¬ LeavesParent (.open path flags) → L' = L) ∧ FilesLast part σ.fs σ'.fs sh sh' noBytes := by
  obtain ⟨small, noZero, success, may⟩ := allowed
  simp only [sysOpen, bind_ok, pure_ok, Prod.exists] at ran
  obtain ⟨fd, t, fdTable, opened, ran⟩ := ran
  cases ran
  by_cases creat : flags &&& oCreat = 0
  · obtain ⟨fd, rfl⟩ := intResult_ne (success creat)
    obtain ⟨lasts, d, m, root⟩ := openPath_opens lay v.mounted (v.roomy small) noZero creat opened
    rw [hold_add] at m
    refine ⟨sh, hold L d, ⟨m, v.notRoot, v.keys, v.fresh⟩, fun stays => ?_, lasts⟩
    rw [hold, root (by_contra fun below => stays ⟨creat, below⟩)]
    rfl
  · obtain ⟨sh', m, lasts⟩ := openPath_creates lay v.mounted (v.roomy small) noZero creat (may creat) opened
    exact ⟨sh', L, ⟨m, v.notRoot, v.keys, v.fresh⟩, fun _ => rfl, lasts⟩

/-- **`sys_close`**. -/
theorem Volume.close (v : Volume part n σ sh L) (small : ∀ a ∈ σ.fs.openInodes, (σ.fs.inodes a).iOpenCnts < 2 ^ 31) {fd r : Int}
    (ran : sysClose pid σ fd = .ok (r, σ')) : Volume part n σ' sh L ∧ FilesLast part σ.fs σ'.fs sh sh noBytes := by
  simp only [sysClose] at ran
  split at ran
  · rw [pure_ok] at ran
    cases ran
    exact ⟨v, .refl⟩
  simp only [bind_ok, pure_ok] at ran
  obtain ⟨g, isG, t, closed, ran⟩ := ran
  cases ran
  obtain ⟨-, ⟨low, lt⟩, rfl⟩ := fdLocal2Global_iff.1 isG
  have inside : ((σ.procs pid).fdTable fd.toNat).toNat < maxFileOpen := (Int.toNat_lt low).2 lt
  have flag := (v.mounted.flags _ inside).1
  rw [closeSlot, if_neg (by simp [isPipe, pipeFlag]; omega)] at closed
  obtain ⟨m, -⟩ := fileClose_inv v.mounted (v.roomy small) inside closed
  have keeps : KeepsFiles part σ.fs t sh := .of_disk (fileClose_disk closed)
  exact ⟨⟨m, v.notRoot, v.keys, v.fresh⟩, keeps.lasts v.mounted.inv fun _ _ => Iff.rfl⟩

/-- **`sys_write`**. -/
theorem Volume.write (lay : Layout part n) (v : Volume part n σ sh L) {fd r : Int} {buf : Image} {count : Nat} (success : r ≠ -1)
    (ran : sysWrite part pid σ fd buf count = .ok (r, σ')) :
    Volume part n σ' sh L ∧ FilesLast part σ.fs σ'.fs sh sh (wrote σ pid (.write fd buf count)) := by
  simp only [sysWrite] at ran
  split at ran
  · rw [pure_ok] at ran
    cases ran
    exact absurd rfl success
  simp only [bind_ok] at ran
  obtain ⟨g, isG, ran⟩ := ran
  obtain ⟨-, ⟨low, lt⟩, rfl⟩ := fdLocal2Global_iff.1 isG
  have inside : ((σ.procs pid).fdTable fd.toNat).toNat < maxFileOpen := (Int.toNat_lt low).2 lt
  have flag := (v.mounted.flags _ inside).1
  rw [if_neg (by simp [isPipe, pipeFlag]; omega)] at ran
  split at ran
  · rename_i screen
    simp only [consoleWrite, bind_ok, defined_ok, pure_ok, exists_const] at ran
    obtain ⟨-, ran⟩ := ran
    cases ran
    rw [wrote, if_pos screen]
    exact ⟨⟨v.mounted, v.notRoot, v.keys, v.fresh⟩, .refl⟩
  rename_i notScreen
  rw [wrote, if_neg notScreen]
  simp only [sysWriteFile] at ran
  split at ran
  · simp only [bind_ok, pure_ok, Prod.exists] at ran
    obtain ⟨r', t, wrote, ran⟩ := ran
    cases ran
    obtain ⟨k, rfl⟩ := intResult_ne success
    obtain ⟨m, lasts⟩ := fileWrite_mounted lay v.mounted inside wrote
    exact ⟨v.of_mounted m, lasts⟩
  · rw [pure_ok] at ran
    cases ran
    exact absurd rfl success

/-- **`sys_read`**. -/
theorem Volume.read (v : Volume part n σ sh L) {kbdBuf kbdBuf' : Ioqueue} {fd r : Int} {buf : Option Image} {dst : Image} {count : Nat}
    (ran : sysRead pid σ kbdBuf fd buf count = .ok (r, dst, kbdBuf', σ')) :
    Volume part n σ' sh L ∧ FilesLast part σ.fs σ'.fs sh sh noBytes := by
  obtain ⟨t, pipes, rfl, moved⟩ := sysRead_moved ran
  exact ⟨⟨v.mounted.moved moved, v.notRoot, v.keys, v.fresh⟩, moved.keepsFiles.lasts v.mounted.inv fun _ _ => Iff.rfl⟩

/-- **`sys_lseek`**. -/
theorem Volume.lseek (v : Volume part n σ sh L) {fd offset r : Int} {whence : Nat}
    (ran : sysLseek pid σ fd offset whence = .ok (r, σ')) : Volume part n σ' sh L ∧ FilesLast part σ.fs σ'.fs sh sh noBytes := by
  obtain ⟨t, rfl, moved⟩ := sysLseek_moved ran
  exact ⟨v.of_mounted (v.mounted.moved moved), moved.keepsFiles.lasts v.mounted.inv fun _ _ => Iff.rfl⟩

/-- **`sys_opendir`**. -/
theorem Volume.opendir (lay : Layout part n) (v : Volume part n σ sh L) {path : List Byte} {r : Int}
    (allowed : VolumeCall part σ pid (.opendir path) r) {ptr : Option Nat} (ran : sysOpendir part pid σ path = .ok (ptr, σ')) :
    Volume part n σ' sh L ∧ FilesLast part σ.fs σ'.fs sh sh noBytes := by
  obtain ⟨small, noZero⟩ := allowed
  simp only [sysOpendir, bind_ok, Prod.exists] at ran
  obtain ⟨found, t, opened, ran⟩ := ran
  obtain ⟨lasts, ⟨root, m⟩ | ⟨d, rfl, notRoot, m⟩⟩ := opendirPath_mounted lay v.mounted (v.roomy small) noZero opened
  · cases found with
    | none =>
      rw [pure_ok] at ran
      cases ran
      exact ⟨v.of_mounted m, lasts⟩
    | some d =>
      simp only [if_pos (root d rfl), pure_ok] at ran
      cases ran
      exact ⟨v.of_mounted m, lasts⟩
  · simp only [notRoot, Bool.false_eq_true, if_false, pure_ok] at ran
    cases ran
    refine ⟨⟨?_, fun x mem => ?_, ?_, fun x mem => ?_⟩, lasts⟩
    · show Mounted part n t sh (fun a => dirHandles ((σ.nextDir, d) :: σ.dirs) a + L a)
      rw [dirHandles_cons]
      rw [bump_add] at m
      exact m
    · rcases List.mem_cons.1 mem with rfl | mem
      · exact notRoot
      · exact v.notRoot x mem
    · refine List.nodup_cons.2 ⟨fun mem => ?_, v.keys⟩
      obtain ⟨x, old, e⟩ := List.mem_map.1 mem
      have := v.fresh x old
      have e : x.1 = σ.nextDir := e
      omega
    · rcases List.mem_cons.1 mem with rfl | mem
      · exact Nat.lt_succ_self _
      · exact Nat.lt_succ_of_lt (v.fresh x mem)

/-- **`sys_closedir`**. -/
theorem Volume.closedir (v : Volume part n σ sh L) (small : ∀ a ∈ σ.fs.openInodes, (σ.fs.inodes a).iOpenCnts < 2 ^ 31)
    {dir : Option Nat} {r : Int} (ran : sysClosedir pid σ dir = .ok (r, σ')) :
    Volume part n σ' sh L ∧ FilesLast part σ.fs σ'.fs sh sh noBytes := by
  simp only [sysClosedir] at ran
  split at ran
  · rw [pure_ok] at ran
    cases ran
    exact ⟨v, .refl⟩
  rename_i ptr
  split at ran
  · rw [pure_ok] at ran
    cases ran
    exact ⟨v, .refl⟩
  split at ran
  · exact (throw_ok.1 ran).elim
  rename_i d at_
  simp only [bind_ok, pure_ok] at ran
  obtain ⟨t, closed, ran⟩ := ran
  cases ran
  have sub : ∀ x, x ∈ (σ.dirs.filter fun x => x.1 ≠ ptr) → x ∈ σ.dirs := fun x mem => (List.mem_filter.1 mem).1
  have roomy := v.roomy small
  have m := v.mounted
  rw [dirHandles_filter v.keys at_, ← bump_add] at m
  have room : Roomy (fun a => dirHandles (σ.dirs.filter fun x => x.1 ≠ ptr) a + L a) := by
    intro a
    have more : dirHandles σ.dirs a + L a + 40 < 2 ^ 32 := roomy a
    have fewer : dirHandles (σ.dirs.filter fun x => x.1 ≠ ptr) a ≤ dirHandles σ.dirs a :=
      List.Sublist.countP_le List.filter_sublist
    show dirHandles (σ.dirs.filter fun x => x.1 ≠ ptr) a + L a + 40 < 2 ^ 32
    omega
  obtain ⟨m', lasts⟩ := dirClose_mounted m room (v.notRoot _ (mem_of_lookup at_)) closed
  exact ⟨⟨m', fun x mem => v.notRoot x (sub x mem), v.keys.sublist (List.filter_sublist.map Prod.fst),
    fun x mem => v.fresh x (sub x mem)⟩, lasts⟩

/-- Every call keeps the volume and what is in the files, and leaves a handle behind only where it is known to. -/
theorem Volume.step (lay : Layout part n) (v : Volume part n σ sh L) {call : Call} {r : Int} (allowed : VolumeCall part σ pid call r)
    (ran : exec part pid σ call = .ok (r, σ')) :
    ∃ sh' L', Volume part n σ' sh' L' ∧ (¬ LeavesParent call → L' = L) ∧
      FilesLast part σ.fs σ'.fs sh sh' (wrote σ pid call) := by
  have small := allowed.1
  have roomy := v.roomy small
  have same : Volume part n σ' sh L ∧ FilesLast part σ.fs σ'.fs sh sh (wrote σ pid call) →
      ∃ sh' L', Volume part n σ' sh' L' ∧ (¬ LeavesParent call → L' = L) ∧
        FilesLast part σ.fs σ'.fs sh sh' (wrote σ pid call) := fun h => ⟨sh, L, h.1, fun _ => rfl, h.2⟩
  cases call with
  | «open» path flags => exact v.open lay allowed ran
  | close fd => exact same (v.close small ran)
  | read kbdBuf fd buf count =>
    simp only [exec, bind_ok, pure_ok, Prod.exists] at ran
    obtain ⟨r', _, _, σ1, read, ran⟩ := ran
    cases ran
    exact same (v.read read)
  | write fd buf count => exact same (v.write lay allowed.2.1 ran)
  | lseek fd offset whence => exact same (v.lseek ran)
  | readdir dir place =>
    simp only [exec, bind_ok, pure_ok, Prod.exists] at ran
    obtain ⟨e, _, -, ran⟩ := ran
    cases ran
    exact same ⟨v, .refl⟩
  | opendir path =>
    simp only [exec, bind_ok, pure_ok, Prod.exists] at ran
    obtain ⟨ptr, σ1, opened, ran⟩ := ran
    cases ran
    exact same (v.opendir lay allowed opened)
  | closedir dir => exact same (v.closedir small ran)
  | unlink path =>
    simp only [exec, sysUnlink, bind_ok, pure_ok, Prod.exists] at ran
    obtain ⟨ok, t, unlinked, ran⟩ := ran
    cases ran
    obtain ⟨sh', m, lasts⟩ := unlinkPath_mounted lay v.mounted roomy allowed.2 unlinked
    exact ⟨sh', L, v.of_mounted m, fun _ => rfl, lasts⟩
  | mkdir path =>
    simp only [exec, sysMkdir, bind_ok, pure_ok, Prod.exists] at ran
    obtain ⟨ok, t, made, ran⟩ := ran
    cases ran
    obtain ⟨sh', m, lasts⟩ := mkdirPath_mounted lay v.mounted roomy allowed.2.1 allowed.2.2 made
    exact ⟨sh', L, v.of_mounted m, fun _ => rfl, lasts⟩
  | rmdir path =>
    simp only [exec, sysRmdir, bind_ok, pure_ok, Prod.exists] at ran
    obtain ⟨ok, t, removed, ran⟩ := ran
    cases ran
    obtain ⟨sh', m, lasts⟩ := rmdirPath_mounted lay v.mounted roomy allowed.2.1 allowed.2.2 removed
    exact ⟨sh', L, v.of_mounted m, fun _ => rfl, lasts⟩
  | stat path =>
    simp only [exec, sysStat, bind_ok, pure_ok, Prod.exists] at ran
    obtain ⟨r', _, σ1, ⟨found, t, looked, ran⟩, e⟩ := ran
    cases ran
    cases e
    obtain ⟨m, lasts⟩ := statPath_mounted lay v.mounted roomy allowed.2 looked
    exact same ⟨v.of_mounted m, lasts⟩
  | chdir path =>
    simp only [exec, sysChdir, bind_ok, Prod.exists] at ran
    obtain ⟨r', s1, search, t, closed, ran⟩ := ran
    obtain ⟨p, inv1, browsed1, -⟩ := searchFile_inv lay roomy.two v.mounted.inv allowed.2 search
    obtain ⟨inv2, browsed2⟩ := closeParent_inv (roomy.two _) inv1 closed
    have m := v.mounted.browsed inv2 (browsed1.trans browsed2)
    have lasts : FilesLast part σ.fs t sh sh noBytes := (browsed1.trans browsed2).keepsFiles.lasts v.mounted.inv fun _ _ => Iff.rfl
    refine same ?_
    split at ran
    · rw [pure_ok] at ran
      cases ran
      exact ⟨⟨m, v.notRoot, v.keys, v.fresh⟩, lasts⟩
    · rw [pure_ok] at ran
      cases ran
      exact ⟨v.of_mounted m, lasts⟩
  | getcwd | pipe | fdRedirect | fork | execv | exit => exact allowed.2.elim

theorem volume_bootSys {s : Fs} (m : Mounted part n s .root (fun _ => 0)) (mallocs : List Bool) :
    Volume part n (bootSys { s with mallocs := mallocs }) .root (fun _ => 0) :=
  ⟨⟨m.inv.heap mallocs, m.files, m.dirs, m.flags⟩, nofun, List.nodup_nil, nofun⟩

end Steps

section Runs

variable {disk : Image} {startLba secCnt sects n : Nat} {part : Partition} {s : Fs} {σ : Sys}

/-- What is allowed under a condition is allowed. -/
theorem Run.weaken {ok ok' : Sys → Nat → Call → Int → Prop} {σ₀ : Sys} (run : Run part ok σ₀ σ)
    (weaker : ∀ σ pid call r, ok σ pid call r → ok' σ pid call r) : Run part ok' σ₀ σ := by
  induction run with
  | refl => exact .refl
  | tail _ step ih =>
    obtain ⟨pid, call, r, allowed, ran⟩ := step
    exact ih.tail ⟨pid, call, r, weaker _ _ _ _ allowed, ran⟩

theorem volume_of_run (lt : secCnt < 2 ^ 32) (sizes : formatSizes secCnt = .ok (sects, n)) (blocks : 8 ≤ n)
    (formatted : formatAndMount disk startLba secCnt = .ok (part, s)) (mallocs : List Bool)
    (run : Run part (VolumeCall part) (bootSys { s with mallocs := mallocs }) σ) : ∃ sh L, Volume part n σ sh L := by
  obtain ⟨lay, m, -⟩ := formatAndMount_empty lt sizes blocks formatted
  refine run.invariant (I := fun σ => ∃ sh L, Volume part n σ sh L) ?_ ⟨_, _, volume_bootSys m mallocs⟩
  rintro _ _ _ _ _ ⟨sh, L, v⟩ allowed ran
  obtain ⟨sh', L', v', -⟩ := v.step lay allowed ran
  exact ⟨sh', L', v'⟩

/-- Without an open that leaves a handle behind there is none. -/
theorem volume_of_run_exact (lt : secCnt < 2 ^ 32) (sizes : formatSizes secCnt = .ok (sects, n)) (blocks : 8 ≤ n)
    (formatted : formatAndMount disk startLba secCnt = .ok (part, s)) (mallocs : List Bool)
    (run : Run part (fun σ pid call r => VolumeCall part σ pid call r ∧ ¬ LeavesParent call)
      (bootSys { s with mallocs := mallocs }) σ) : ∃ sh, Volume part n σ sh (fun _ => 0) := by
  obtain ⟨lay, m, -⟩ := formatAndMount_empty lt sizes blocks formatted
  refine run.invariant (I := fun σ => ∃ sh, Volume part n σ sh (fun _ => 0)) ?_ ⟨_, volume_bootSys m mallocs⟩
  rintro _ _ _ _ _ ⟨sh, v⟩ ⟨allowed, stays⟩ ran
  obtain ⟨sh', L', v', same, -⟩ := v.step lay allowed ran
  rw [same stays] at v'
  exact ⟨sh', v'⟩

/-- The live inodes are the allocated ones. -/
theorem FsInv.allocated_iff {sh : Shape} {H : Nat → Nat} (inv : FsInv part n s sh H) (m : Nat) : Allocated s m ↔ sh.live m := by
  constructor
  · rintro ⟨low, set⟩
    exact (inv.bits m low).1 set
  · intro live
    have low : m < 4096 := Nat.lt_trans (inv.tree.low m live) (by decide)
    exact ⟨low, (inv.bits m low).2 live⟩

theorem FsInv.consistent {sh : Shape} {H : Nat → Nat} (inv : FsInv part n s sh H) : Consistent part n s sh.dir := by
  have tree := inv.tree
  obtain ⟨rootLive, rootDir, rootUp⟩ := tree.naming.top
  constructor
  all_goals simp only [inv.allocated_iff]
  case root => exact ⟨rootLive, rootDir⟩
  case record => exact fun m live => ⟨tree.low m live, (tree.node m live).number⟩
  case block => exact fun m k live lt has => (tree.node m live).blocks.block k lt has
  case once =>
    intro m m' k k' live live' lt lt' has same
    obtain rfl := tree.apart m m' _ live live' ⟨has, k, lt, rfl⟩ ⟨has, k', lt', same.symm⟩
    exact ⟨rfl, (tree.node m live).blocks.inj k k' lt lt' has same⟩
  case length => exact fun m live file => ((tree.node m live).fileWf file).filled
  case slots =>
    intro m k j live dir lt ltj has
    refine (((tree.node m live).dirWf dir).1.used k j lt ltj has).imp_right ?_
    rintro ⟨x, entry⟩
    exact ⟨x, lt, ltj, has, entry⟩
  case size => exact fun m live dir => ((tree.node m live).dirWf dir).2
  case dot =>
    intro m live dir
    obtain ⟨x, at_, name, number, -⟩ := ((tree.node m live).dirWf dir).1.dot
    exact ⟨x, at_, name, number⟩
  case dotDot =>
    intro m live dir
    obtain ⟨x, at_, name, number, -⟩ := ((tree.node m live).dirWf dir).1.dotDot
    obtain ⟨liveUp, dirUp⟩ := tree.naming.up live dir
    refine ⟨x, at_, name, ?_⟩
    rw [number]
    refine ⟨liveUp, dirUp, ?_⟩
    by_cases top : m = 0
    · exact .inl ⟨top, by rw [top]; exact rootUp⟩
    · obtain ⟨-, -, y, entry, number⟩ := tree.naming.holder m live dir top
      exact .inr ⟨y, entry, number⟩
  case names =>
    rintro m x y live dir ⟨-, k, j, at_⟩ ⟨-, k', j', at'⟩ same
    obtain ⟨rfl, rfl⟩ := ((tree.node m live).dirWf dir).1.names _ _ _ _ _ _ at_ at' same
    exact at_.unique at'
  case named => exact fun m x live dir entry => tree.naming.named m x live dir entry
  case alone =>
    exact fun m m' x y live dir live' dir' entry entry' same => tree.naming.once m m' x y live dir live' dir' entry entry' same

theorem Volume.cacheExact {sh : Shape} (v : Volume part n σ sh (fun _ => 0)) : CacheExact part σ := by
  obtain ⟨inv, -⟩ := v.mounted
  refine ⟨inv.cache.nodup, inv.cache.held, inv.cache.distinct, fun a mem => ?_, inv.cache.counts⟩
  have alive := inv.alive a mem
  exact ⟨(inv.allocated_iff _).2 alive, inv.cache.stored a mem alive⟩

/-- **The volume stays in order**, over every run of the calls. -/
theorem volume_consistent (lt : secCnt < 2 ^ 32) (sizes : formatSizes secCnt = .ok (sects, n)) (blocks : 8 ≤ n)
    (formatted : formatAndMount disk startLba secCnt = .ok (part, s)) (mallocs : List Bool)
    (run : Run part (VolumeCall part) (bootSys { s with mallocs := mallocs }) σ) : ∃ dir, Consistent part n σ.fs dir := by
  obtain ⟨sh, L, v⟩ := volume_of_run lt sizes blocks formatted mallocs run
  exact ⟨sh.dir, v.mounted.inv.consistent⟩

/-- **The cache counts the open files and directories exactly**, as long as files are opened in the root directory
only. -/
theorem cache_exact (lt : secCnt < 2 ^ 32) (sizes : formatSizes secCnt = .ok (sects, n)) (blocks : 8 ≤ n)
    (formatted : formatAndMount disk startLba secCnt = .ok (part, s)) (mallocs : List Bool)
    (run : Run part (fun σ pid call r => VolumeCall part σ pid call r ∧ ¬ LeavesParent call)
      (bootSys { s with mallocs := mallocs }) σ) : CacheExact part σ := by
  obtain ⟨sh, v⟩ := volume_of_run_exact lt sizes blocks formatted mallocs run
  exact v.cacheExact

/-- Along a run that does not remove file `f`, it holds what it held and what was written to it. -/
theorem Volume.appends {sh : Shape} {L : Nat → Nat} {σ' : Sys} {f : Nat} {bytes : List Byte} (lay : Layout part n)
    (v : Volume part n σ sh L) (live : sh.live f) (file : ¬ sh.dir f)
    (run : Appends part (fun σ pid call r => VolumeCall part σ pid call r ∧ Spares part f σ pid call r) f σ bytes σ') :
    ∃ sh' L', Volume part n σ' sh' L' ∧ sh'.live f ∧ ¬ sh'.dir f ∧ fileBytes part σ'.fs f = fileBytes part σ.fs f ++ bytes := by
  induction run with
  | refl => exact ⟨sh, L, v, live, file, (List.append_nil _).symm⟩
  | step _ allowed ran ih =>
    obtain ⟨sh₁, L₁, v₁, live₁, file₁, holds⟩ := ih
    obtain ⟨sh₂, L₂, v₂, -, lasts⟩ := v₁.step lay allowed.1 ran
    have live₂ := (v₂.mounted.inv.allocated_iff f).1 (allowed.2 _ ran)
    obtain ⟨file₂, more⟩ := lasts f live₁ file₁ live₂
    exact ⟨sh₂, L₂, v₂, live₂, file₂, by rw [more, holds, List.append_assoc]⟩

/-- **What a file holds lasts.** In a state of such a run, whatever is done next: as long as no call removes a file, it
is a file and holds the bytes it had and what was written to it since, in this order. -/
theorem file_durable (lt : secCnt < 2 ^ 32) (sizes : formatSizes secCnt = .ok (sects, n)) (blocks : 8 ≤ n)
    (formatted : formatAndMount disk startLba secCnt = .ok (part, s)) (mallocs : List Bool)
    (run : Run part (VolumeCall part) (bootSys { s with mallocs := mallocs }) σ) :
    ∃ dir, Consistent part n σ.fs dir ∧
      (∀ i a, i < maxFileOpen → (σ.fs.fileTable i).fdInode = .inode a →
        Allocated σ.fs (σ.fs.inodes a).iNo ∧ ¬ dir (σ.fs.inodes a).iNo) ∧
      ∀ f bytes σ', Allocated σ.fs f → ¬ dir f →
        Appends part (fun σ pid call r => VolumeCall part σ pid call r ∧ Spares part f σ pid call r) f σ bytes σ' →
        ∃ dir', Consistent part n σ'.fs dir' ∧ Allocated σ'.fs f ∧ ¬ dir' f ∧
          fileBytes part σ'.fs f = fileBytes part σ.fs f ++ bytes := by
  obtain ⟨lay, -⟩ := formatAndMount_empty lt sizes blocks formatted
  obtain ⟨sh, L, v⟩ := volume_of_run lt sizes blocks formatted mallocs run
  have inv := v.mounted.inv
  refine ⟨sh.dir, inv.consistent, fun i a lt slot => ?_, fun f bytes σ' used file run' => ?_⟩
  · exact ⟨(inv.allocated_iff _).2 (inv.alive a (v.mounted.slot_mem lt slot)), v.mounted.files i a lt slot⟩
  · obtain ⟨sh', L', v', live, file', holds⟩ := v.appends lay ((inv.allocated_iff f).1 used) file run'
    exact ⟨sh'.dir, v'.mounted.inv.consistent, (v'.mounted.inv.allocated_iff f).2 live, file', holds⟩

end Runs

section Examples

variable {part : Partition} {σ : Sys} {pid : Nat} {call : Call} {r : Int}

def noZeroByte (path : List Byte) : Bool := path.all fun c => decide (c ≠ 0#8)

theorem noZeroByte_iff {path : List Byte} : noZeroByte path = true ↔ 0#8 ∉ path := by
  rw [noZeroByte, List.all_eq_true]
  constructor
  · exact fun all mem => of_decide_eq_true (all _ mem) rfl
  · exact fun no c mem => decide_eq_true fun e => no (e ▸ mem)

def fileOneSectorTest (s : Fs) (g : Nat) : Bool :=
  match (s.fileTable g).fdInode with
  | .inode a => decide (OneSector ((s.inodes a).iNo % 256))
  | _ => true

theorem fileOneSectorTest_sound {s : Fs} {g : Nat} (h : fileOneSectorTest s g = true) : FileOneSector s g := by
  intro a file
  rw [fileOneSectorTest, file] at h
  exact of_decide_eq_true h

/-- A test that is true of some of these calls only. -/
def volumeCallTest (part : Partition) (σ : Sys) (pid : Nat) (call : Call) (r : Int) : Bool :=
  decide (∀ a ∈ σ.fs.openInodes, (σ.fs.inodes a).iOpenCnts < 2 ^ 31) && match call with
    | .open pathname flags =>
      noZeroByte pathname && decide (flags &&& oCreat ≠ 0) && mayCreateTest part (σ.heapOf pid) σ.fs pathname
    | .mkdir pathname => noZeroByte pathname && mayCreateTest part (σ.heapOf pid) σ.fs.malloc pathname
    | .unlink pathname | .opendir pathname => noZeroByte pathname
    | .write fd _ _ => decide (r ≠ -1) && fileOneSectorTest σ.fs ((σ.procs pid).fdTable fd.toNat).toNat
    | .close _ => true
    | _ => false

theorem volumeCallTest_sound (h : volumeCallTest part σ pid call r = true) :
    VolumeCall part σ pid call r ∧ ¬ LeavesParent call := by
  cases call with
  | «open» pathname flags =>
    simp only [volumeCallTest, Bool.and_eq_true, decide_eq_true_eq, noZeroByte_iff] at h
    obtain ⟨small, ⟨noZero, creat⟩, may⟩ := h
    exact ⟨⟨small, noZero, fun plain => absurd plain creat, fun _ => mayCreateTest_sound may⟩, fun leaves => creat leaves.1⟩
  | mkdir pathname =>
    simp only [volumeCallTest, Bool.and_eq_true, decide_eq_true_eq, noZeroByte_iff] at h
    exact ⟨⟨h.1, h.2.1, mayCreateTest_sound h.2.2⟩, id⟩
  | unlink pathname =>
    simp only [volumeCallTest, Bool.and_eq_true, decide_eq_true_eq, noZeroByte_iff] at h
    exact ⟨h, id⟩
  | opendir pathname =>
    simp only [volumeCallTest, Bool.and_eq_true, decide_eq_true_eq, noZeroByte_iff] at h
    exact ⟨h, id⟩
  | write fd buf count =>
    simp only [volumeCallTest, Bool.and_eq_true, decide_eq_true_eq] at h
    exact ⟨⟨h.1, h.2.1, fun _ => fileOneSectorTest_sound h.2.2⟩, id⟩
  | close fd =>
    simp only [volumeCallTest, Bool.and_eq_true, decide_eq_true_eq] at h
    exact ⟨h, id⟩
  | _ => simp only [volumeCallTest, Bool.and_false, Bool.false_eq_true] at h

/-- The main thread: `/d` is made and opened, `/f` is created, written and closed, `/d/e` is made and `/f` removed. -/
def volumeCalls : List (Nat × Call) :=
  [(2, .mkdir pathD), (2, .opendir pathD), (2, .open pathF 7), (2, .write 3 (fun _ => 0x78#8) 5), (2, .close 3),
    (2, .mkdir pathDE), (2, .unlink pathF)]

theorem volumeCalls_run : ∃ part s σ, formatAndMount (fun _ => 0#8) 1 620 = .ok (part, s) ∧
    Run part (fun σ pid call r => VolumeCall part σ pid call r ∧ ¬ LeavesParent call) (bootSys s) σ ∧ σ.dirs.length = 1 := by
  have ran : returns (formatAndMount (fun _ => 0#8) 1 620) (fun x =>
      returns (runCalls x.1 (volumeCallTest x.1) volumeCalls (bootSys x.2)) fun σ => decide (σ.dirs.length = 1)) = true := by
    decide +kernel
  obtain ⟨⟨part, s⟩, formatted, ran⟩ := returns_true.1 ran
  obtain ⟨σ, ran, one⟩ := returns_true.1 ran
  exact ⟨part, s, σ, formatted, runCalls_run (fun _ _ _ _ => volumeCallTest_sound) _ _ ran, of_decide_eq_true one⟩

theorem volume_consistent_small : ∃ (part : Partition) (σ : Sys) (dir : Nat → Prop),
    Consistent part 8 σ.fs dir ∧ σ.dirs.length = 1 := by
  obtain ⟨part, s, σ, formatted, run, one⟩ := volumeCalls_run
  have calls : Run part (VolumeCall part) (bootSys s) σ := run.weaken fun _ _ _ _ => And.left
  obtain ⟨dir, consistent⟩ := volume_consistent (by decide) (show formatSizes 620 = .ok (1, 8) from rfl) (by decide)
    formatted s.mallocs calls
  exact ⟨part, σ, dir, consistent, one⟩

theorem cache_exact_small : ∃ (part : Partition) (σ : Sys), CacheExact part σ ∧ σ.dirs.length = 1 := by
  obtain ⟨part, s, σ, formatted, run, one⟩ := volumeCalls_run
  exact ⟨part, σ, cache_exact (by decide) (show formatSizes 620 = .ok (1, 8) from rfl) (by decide) formatted s.mallocs run, one⟩

/-- A test for a run that spares inode 1. -/
def sparesOne (part : Partition) (σ : Sys) (pid : Nat) (call : Call) (r : Int) : Bool :=
  volumeCallTest part σ pid call r && returns (exec part pid σ call) fun x => decide (x.2.fs.inodeBitmap.Set 1)

theorem sparesOne_sound (h : sparesOne part σ pid call r = true) :
    VolumeCall part σ pid call r ∧ Spares part 1 σ pid call r := by
  rw [sparesOne, Bool.and_eq_true] at h
  obtain ⟨⟨r', σ'⟩, ran, set⟩ := returns_true.1 h.2
  refine ⟨(volumeCallTest_sound h.1).1, fun σ'' ran' => ⟨by decide, ?_⟩⟩
  rw [ran] at ran'
  cases ran'
  exact of_decide_eq_true set

/-- Every run writes some bytes to a file. -/
theorem Run.appends {ok : Sys → Nat → Call → Int → Prop} {σ' : Sys} (f : Nat) (run : Run part ok σ σ') :
    ∃ bytes, Appends part ok f σ bytes σ' := by
  induction run with
  | refl => exact ⟨[], .refl⟩
  | tail _ step ih =>
    obtain ⟨bytes, before⟩ := ih
    obtain ⟨pid, call, r, allowed, ran⟩ := step
    exact ⟨_, before.step allowed ran⟩

/-- Slot 3 has inode 1, which holds five letters. -/
def fiveLetters (part : Partition) (s : Fs) : Bool :=
  match (s.fileTable 3).fdInode with
  | .inode a => decide ((s.inodes a).iNo = 1 ∧ fileBytes part s 1 = List.replicate 5 0x78#8)
  | _ => false

/-- `/f` is created and gets five letters, and then two more behind them while `/d` is made. -/
theorem durableCalls_run : ∃ part s σ σ' a, formatAndMount (fun _ => 0#8) 1 620 = .ok (part, s) ∧
    Run part (VolumeCall part) (bootSys s) σ ∧
    Run part (fun σ pid call r => VolumeCall part σ pid call r ∧ Spares part 1 σ pid call r) σ σ' ∧
    (σ.fs.fileTable 3).fdInode = .inode a ∧ (σ.fs.inodes a).iNo = 1 ∧ fileBytes part σ.fs 1 = List.replicate 5 0x78#8 ∧
    fileBytes part σ'.fs 1 = List.replicate 5 0x78#8 ++ [0x79#8, 0x79#8] := by
  have ran : returns (formatAndMount (fun _ => 0#8) 1 620) (fun x =>
      returns (runCalls x.1 (volumeCallTest x.1) [(2, .open pathF 7), (2, .write 3 (fun _ => 0x78#8) 5)] (bootSys x.2)) fun σ =>
        fiveLetters x.1 σ.fs &&
        returns (runCalls x.1 (sparesOne x.1) [(2, .mkdir pathD), (2, .write 3 (fun _ => 0x79#8) 2), (2, .close 3)] σ) fun σ' =>
          decide (fileBytes x.1 σ'.fs 1 = List.replicate 5 0x78#8 ++ [0x79#8, 0x79#8])) = true := by
    decide +kernel
  obtain ⟨⟨part, s⟩, formatted, ran⟩ := returns_true.1 ran
  obtain ⟨σ, first, ran⟩ := returns_true.1 ran
  rw [Bool.and_eq_true] at ran
  obtain ⟨five, ran⟩ := ran
  obtain ⟨σ', next, seven⟩ := returns_true.1 ran
  have run := (runCalls_run (fun _ _ _ _ => volumeCallTest_sound) _ _ first).weaken fun _ _ _ _ => And.left
  rw [fiveLetters] at five
  split at five
  case h_2 => cases five
  rename_i a slot
  obtain ⟨number, letters⟩ := of_decide_eq_true five
  exact ⟨part, s, σ, σ', a, formatted, run, runCalls_run (fun _ _ _ _ => sparesOne_sound) _ _ next, slot, number, letters,
    of_decide_eq_true seven⟩

theorem file_durable_small : ∃ (part : Partition) (σ σ' : Sys), fileBytes part σ.fs 1 = List.replicate 5 0x78#8 ∧
    Appends part (fun σ pid call r => VolumeCall part σ pid call r ∧ Spares part 1 σ pid call r) 1 σ [0x79#8, 0x79#8] σ' ∧
    fileBytes part σ'.fs 1 = List.replicate 5 0x78#8 ++ [0x79#8, 0x79#8] := by
  obtain ⟨part, s, σ, σ', a, formatted, run, run', slot, number, letters, more⟩ := durableCalls_run
  obtain ⟨dir, -, slots, lasts⟩ := file_durable (by decide) (show formatSizes 620 = .ok (1, 8) from rfl) (by decide)
    formatted s.mallocs run
  have file := slots 3 a (by decide) slot
  rw [number] at file
  obtain ⟨bytes, writes⟩ := run'.appends 1
  obtain ⟨dir', -, -, -, holds⟩ := lasts 1 bytes σ' file.1 file.2 writes
  -- what was written is what is behind the five letters
  rw [more, letters] at holds
  obtain rfl := List.append_cancel_left holds
  exact ⟨part, σ, σ', letters, writes, more⟩

end Examples

end Sparrow
