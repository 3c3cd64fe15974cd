import Sparrow.Fs.DirHandles
import Sparrow.Volume.Contents
import Sparrow.Volume.FailedCalls

/-!
# What each call leaves of a mounted partition

`Mounted` says that the tree on the disk is in order and that the cache counts the slots of the
file table and the handles `D` of directories. A write changes the file it appends to and nothing
else of the tree (`fileWrite_mounted`); `sys_open` fills a slot or looks around (`openPath_creates`), and without
`O_CREAT` it never closes the directory it searched, which is one handle more on it
(`openPath_opens`). No call changes what is in a file, but for a write, which adds to it, and for `sys_unlink`.
-/

namespace Sparrow
set_option autoImplicit false

section Write

variable {part : Partition} {n g addr count : Nat} {me : Option Nat} {s t : Fs} {sh : Shape} {H D : Nat → Nat} {v : Vnode} {buf : Image}

theorem Written.stored (inv : FsInv part n s sh H) (mem : addr ∈ s.openInodes) (written : Written part n (s.vnode addr) v buf count) :
    Stored part v.disk (s.inodes addr).iNo v.inode := by
  have holds := written.holds
  have mod : (s.inodes addr).iNo % 256 = (s.inodes addr).iNo := Nat.mod_eq_of_lt (inv.tree.low _ (inv.alive addr mem))
  rw [show (s.vnode addr).inode.iNo % 256 = (s.inodes addr).iNo from mod] at holds
  exact holds.stored written.wf.range

/-- A file on the disk has the blocks of its object. -/
theorem FsInv.file_refs (inv : FsInv part n s sh H) (mem : addr ∈ s.openInodes) (file : ¬ sh.dir (s.inodes addr).iNo) :
    ∀ k, k < 141 → blockRef s.disk (s.inodes addr) k = blockRef s.disk (slot part s.disk (s.inodes addr).iNo) k := by
  have live := inv.alive addr mem
  exact (((inv.tree.node _ live).fileWf file).move (s.vnode addr) (inv.cache.stored addr mem live) (fun _ _ _ _ => rfl)
    fun _ _ h => h).2

/-- The blocks of a file that grew are its own and blocks that were free. -/
theorem Written.blocks (inv : FsInv part n s sh H) (mem : addr ∈ s.openInodes) (file : ¬ sh.dir (s.inodes addr).iNo)
    (written : Written part n (s.vnode addr) v buf count) {lba : Nat} (owns : Owns (blockRef v.disk v.inode) lba) :
    owned part s.disk (s.inodes addr).iNo lba ∨ ∃ i, lba = part.sb.dataStartLba + i ∧ ¬ s.blockBitmap.Set i := by
  obtain ⟨some, k, lt, is⟩ := owns
  by_cases had : blockRef s.disk (s.inodes addr) k = 0
  · obtain ⟨i, -, -, at_, clear⟩ := written.grow.free k lt had (is ▸ some)
    exact .inr ⟨i, is.symm.trans at_, clear⟩
  · refine .inl ⟨some, k, lt, ?_⟩
    rw [← is, written.grow.kept k lt had]
    exact (inv.file_refs mem file k lt).symm

theorem Written.untouched (inv : FsInv part n s sh H) (mem : addr ∈ s.openInodes) (file : ¬ sh.dir (s.inodes addr).iNo)
    (written : Written part n (s.vnode addr) v buf count) {m : Nat} (live : sh.live m) (ne : m ≠ (s.inodes addr).iNo) :
    Untouched part s.disk s.blockBitmap v.disk v.blockBitmap m := by
  have liveF := inv.alive addr mem
  refine written.step.toDiskFrame.untouched (inv.tree.node m live) (Nat.lt_trans (inv.tree.low m live) (by decide)) ?_
    (fun lba o has => ?_) fun i _ set => (written.grow.bits i).2 (.inl set)
  · show m ≠ (s.inodes addr).iNo % 256
    rw [Nat.mod_eq_of_lt (inv.tree.low _ liveF)]
    exact ne
  · rcases written.blocks inv mem file has with o' | ⟨i, rfl, clear⟩
    · exact ne (inv.tree.apart m _ lba live liveF o o')
    · obtain ⟨j, -, is, set⟩ := (inv.tree.node m live).blocks.owned o
      exact clear ((show j = i by omega) ▸ set)

/-- **A write appends its bytes.** -/
theorem Written.fileBytes (inv : FsInv part n s sh H) (mem : addr ∈ s.openInodes) (file : ¬ sh.dir (s.inodes addr).iNo)
    (written : Written part n (s.vnode addr) v buf count) :
    fileBytes part (s.setVnode addr v) (s.inodes addr).iNo =
      fileBytes part s (s.inodes addr).iNo ++ (List.range count).map buf := by
  have live := inv.alive addr mem
  have old := inv.cache.stored addr mem live
  have stored := written.stored inv mem
  have wf := (inv.tree.node _ live).fileWf file
  have size : v.inode.iSize = (s.inodes addr).iSize + count := by rw [written.inode]; rfl
  -- on the disk as in the object
  have before : ∀ pos, pos < (s.inodes addr).iSize →
      byteAt (s.vnode addr) pos = byteAt (nodeAt part s.disk s.blockBitmap (s.inodes addr).iNo) pos := by
    intro pos lt
    obtain ⟨few, -⟩ := wf.block (old.iSize ▸ lt)
    exact byteAt_congr rfl (inv.file_refs mem file _ (by omega))
  have after : ∀ pos, pos < (s.inodes addr).iSize + count →
      byteAt (nodeAt part v.disk v.blockBitmap (s.inodes addr).iNo) pos = byteAt v pos := by
    intro pos lt
    obtain ⟨few, -⟩ := written.wf.block (size ▸ lt)
    exact byteAt_congr rfl (blockRef_congr stored.same.sec (fun _ _ _ => rfl) (by omega))
  show (List.range (slot part v.disk _).iSize).map (byteAt (nodeAt part v.disk v.blockBitmap _)) = _
  rw [stored.same.iSize, size, List.range_add, List.map_append, Sparrow.fileBytes, ← old.iSize, List.map_map]
  refine congrArg₂ _ (List.map_congr_left fun pos mem => ?_) (List.map_congr_left fun pos mem => ?_)
  · have lt := List.mem_range.1 mem
    exact (after pos (by omega)).trans ((written.old pos lt).trans (before pos lt))
  · have lt := List.mem_range.1 mem
    exact (after ((s.inodes addr).iSize + pos) (by omega)).trans (written.new pos lt)

/-- A file that grew, stored in its slot and its object: the partition is in order again. -/
theorem FsInv.written (inv : FsInv part n s sh H) (mem : addr ∈ s.openInodes)
    (file : ¬ sh.dir (s.inodes addr).iNo) (written : Written part n (s.vnode addr) v buf count) :
    FsInv part n (s.setVnode addr v) sh H := by
  have live := inv.alive addr mem
  have stored := written.stored inv mem
  have number : v.inode.iNo = (s.inodes addr).iNo := by
    rw [written.inode]
    rfl
  obtain ⟨wf', refs'⟩ := written.wf.move (nodeAt part v.disk v.blockBitmap (s.inodes addr).iNo) stored.same
    (fun _ _ _ _ => rfl) fun _ _ h => h
  refine ⟨⟨?_, ?_, inv.len⟩, inv.bits, fun a mem' => ?_⟩
  · refine inv.tree.change file (fun m => written.untouched inv mem file) written.grow.map ?_ fun lba o => ?_
    · exact ⟨stored.same.iNo.trans number, stored.deny, fun dir => absurd dir file, fun _ => wf'⟩
    · obtain ⟨some, k, lt, is⟩ := o
      exact written.blocks inv mem file ⟨some, k, lt, (refs' k lt).symm.trans is⟩
  · refine inv.cache.store addr v.inode rfl (Nat.le_refl _) (fun _ _ => rfl) rfl number ?_
      (fun _ => by rw [number]; exact stored.same.symm) fun a mem' ne live' =>
        ⟨live', (written.untouched inv mem file live' fun e => ?_).slot⟩
    · rw [written.inode]
      rfl
    · exact ne (inv.cache.distinct a mem' addr mem e)
  · show sh.live (if a = addr then v.inode else s.inodes a : Inode).iNo
    split
    · rw [number]
      exact live
    · exact inv.alive a mem'

/-- The other files hold what they held. -/
theorem Written.lasts (inv : FsInv part n s sh H) (mem : addr ∈ s.openInodes) (file : ¬ sh.dir (s.inodes addr).iNo)
    (written : Written part n (s.vnode addr) v buf count) : FilesLast part s (s.setVnode addr v) sh sh
      fun m => if (s.inodes addr).iNo = m then (List.range count).map buf else [] := by
  intro m live fileM _
  refine ⟨fileM, ?_⟩
  by_cases e : (s.inodes addr).iNo = m
  · rw [← e, written.fileBytes inv mem file]
    simp only [if_pos]
  · have same := Untouched.fileBytes (t := s.setVnode addr v) (written.untouched inv mem file live (Ne.symm e))
      ((inv.tree.node m live).fileWf fileM)
    simp only [same, if_neg e, List.append_nil]

/-- **`file_write`** that returns a count. -/
theorem fileWrite_mounted (lay : Layout part n) (mounted : Mounted part n s sh D) (lt : g < maxFileOpen) {r : Nat}
    (h : fileWrite part me s g buf count = .ok (some r, t)) :
    Mounted part n t sh D ∧ FilesLast part s t sh sh (slotBytes s g buf count) := by
  simp only [fileWrite] at h
  split at h
  case h_2 => exact (throw_ok.1 h).elim
  rename_i addr file
  simp only [bind_ok, defined_ok, exists_const] at h
  obtain ⟨-, h⟩ := h
  split at h
  · rw [pure_ok] at h
    cases h
  split at h
  · rw [pure_ok] at h
    cases h
  split at h
  · rw [pure_ok] at h
    cases h
  simp only [bind_ok, pure_ok, Prod.exists] at h
  obtain ⟨r', v, fdPos, ran, h⟩ := h
  cases h
  have inv := mounted.inv.malloc.malloc
  have mem : addr ∈ s.malloc.malloc.openInodes := mounted.slot_mem lt file
  have notDir : ¬ sh.dir (s.malloc.malloc.inodes addr).iNo := mounted.files g addr lt file
  obtain ⟨wf, -⟩ := ((inv.tree.node _ (inv.alive addr mem)).fileWf notDir).move (s.malloc.malloc.vnode addr)
    (inv.cache.stored addr mem (inv.alive addr mem)) (fun _ _ _ _ => rfl) fun _ _ h => h
  obtain ⟨-, -, none | ⟨-, written⟩⟩ := writeFile_ok lay inv.tree.map wf ran
  · cases none
  have lasts := written.lasts inv mem notDir
  have added : slotBytes s g buf count = fun m => if (s.inodes addr).iNo = m then (List.range count).map buf else [] := by
    funext m
    simp only [slotBytes, file]
  rw [added]
  refine ⟨mounted.step ((inv.written mem notDir written).setFile g _) ?_ fun _ _ => Iff.rfl, lasts⟩
  refine ⟨Nat.le_refl _, fun a _ => ?_, fun i => ?_, fun i => .inl ?_⟩
  · show (if a = addr then v.inode else s.inodes a : Inode).iNo = (s.inodes a).iNo
    split
    · rename_i e
      rw [written.inode, e]
      rfl
    · rfl
  · show (if i = g then _ else s.fileTable i : File).fdInode = (s.fileTable i).fdInode
    split
    · rename_i e
      rw [e]
    · rfl
  · show (if i = g then _ else s.fileTable i : File).fdFlag = (s.fileTable i).fdFlag
    split
    · rename_i e
      rw [e]
    · rfl

end Write

section Directories

variable {part : Partition} {n q : Nat} {me : Option Nat} {s t : Fs} {sh : Shape} {D : Nat → Nat} {d : Dir} {path : List Byte}

theorem hold_add (H D : Nat → Nat) (d : Dir) : hold (fun a => H a + D a) d = fun a => H a + hold D d a := by
  rw [hold, hold]
  split
  · rfl
  · exact add_bump H D d.inode

/-- A directory was opened. -/
theorem Mounted.opened (m : Mounted part n s sh D) (inv : FsInv part n t sh (hold (fun a => slotHandles s.fileTable a + D a) d))
    (browsed : Browsed s t) (dirAt : DirAt t sh d q) : Mounted part n t sh (hold D d) := by
  have numbers := browsed.steady.numbers
  refine ⟨?_, fun i a lt h => ?_, fun a pos => ?_, fun i lt => ?_⟩
  · rw [hold_add, ← browsed.fileTable] at inv
    exact inv
  · rw [browsed.fileTable] at h
    rw [numbers a (m.inv.cache.fresh a (m.slot_mem lt h))]
    exact m.files i a lt h
  · rcases hold_pos pos with pos | rfl
    · rw [numbers a (m.inv.cache.fresh a (m.dir_mem pos))]
      exact m.dirs a pos
    · rw [dirAt.number]
      exact dirAt.dir
  · rw [browsed.fileTable]
    exact m.flags i lt

/-- Nothing but the cache was used. -/
theorem Mounted.browsed (m : Mounted part n s sh D) (inv : FsInv part n t sh (fun a => slotHandles s.fileTable a + D a))
    (browsed : Browsed s t) : Mounted part n t sh D := m.step inv browsed.steady fun _ _ => Iff.rfl

/-- Only a position in a file moved. -/
theorem Mounted.moved (m : Mounted part n s sh D) (moved : s.Moved t) : Mounted part n t sh D := by
  obtain ⟨g, pos, mallocs, rfl⟩ := moved
  have slots : ∀ i, (if i = g then { s.fileTable g with fdPos := pos } else s.fileTable i).fdInode = (s.fileTable i).fdInode ∧
      (if i = g then { s.fileTable g with fdPos := pos } else s.fileTable i).fdFlag = (s.fileTable i).fdFlag := by
    intro i
    split
    · rename_i e
      rw [e]
      exact ⟨rfl, rfl⟩
    · exact ⟨rfl, rfl⟩
  refine ⟨?_, fun i a lt h => m.files i a lt ((slots i).1.symm.trans h), m.dirs, fun i lt => ?_⟩
  · rw [Fs.setFile, slotHandles_congr fun i => (slots i).1]
    exact (m.inv.heap mallocs).setFile g _
  · rw [Fs.setFile, (slots i).1, (slots i).2]
    exact m.flags i lt

theorem Fs.Moved.keepsFiles (moved : s.Moved t) : KeepsFiles part s t sh := by
  obtain ⟨g, pos, mallocs, rfl⟩ := moved
  exact .of_disk ⟨rfl, rfl⟩

/-- All counts are far from the largest word. -/
def Roomy (D : Nat → Nat) : Prop := ∀ a, D a + 40 < 2 ^ 32

theorem Roomy.slots (room : Roomy D) (a : Nat) : slotHandles s.fileTable a + D a + 4 < 2 ^ 32 := by
  have := slotHandles_le s.fileTable a
  have := room a
  omega

theorem Roomy.two (room : Roomy D) (a : Nat) : slotHandles s.fileTable a + D a + 2 < 2 ^ 32 := by
  have := room.slots (s := s) a
  omega

/-- `dir_close` of a directory `sys_opendir` opened. -/
theorem dirClose_mounted (m : Mounted part n s sh (bump D d.inode)) (room : Roomy D) (notRoot : d.isRoot = false)
    (h : dirClose me s d = .ok t) : Mounted part n t sh D ∧ FilesLast part s t sh sh noBytes := by
  have held : FsInv part n s sh (hold (fun a => slotHandles s.fileTable a + D a) d) := by
    rw [hold_add, hold, notRoot]
    exact m.inv
  obtain ⟨inv, browsed⟩ := dirClose_inv held (room.two _) h
  have numbers := browsed.steady.numbers
  refine ⟨⟨?_, fun i a lt h => ?_, fun a pos => ?_, fun i lt => ?_⟩, browsed.keepsFiles.lasts m.inv fun _ _ => Iff.rfl⟩
  · rw [browsed.fileTable]
    exact inv
  · rw [browsed.fileTable] at h
    rw [numbers a (m.inv.cache.fresh a (m.slot_mem lt h))]
    exact m.files i a lt h
  · have more : 0 < bump D d.inode a := by
      by_cases e : a = d.inode
      · rw [e, bump_self]
        exact Nat.succ_pos _
      · rwa [bump_of_ne e]
    rw [numbers a (m.inv.cache.fresh a (m.dir_mem more))]
    exact m.dirs a more
  · rw [browsed.fileTable]
    exact m.flags i lt

/-- **`sys_opendir`**: a handle on a directory, or nothing; `/` gives the root's own. -/
theorem opendirPath_mounted (lay : Layout part n) (m : Mounted part n s sh D) (room : Roomy D) (noZero : 0#8 ∉ path)
    {found : Option Dir} (h : opendirPath part me s path = .ok (found, t)) :
    FilesLast part s t sh sh noBytes ∧ (((∀ d, found = some d → d.isRoot = true) ∧ Mounted part n t sh D) ∨
      ∃ d, found = some d ∧ d.isRoot = false ∧ Mounted part n t sh (bump D d.inode)) := by
  have lasts : Browsed s t → FilesLast part s t sh sh noBytes := fun looked => looked.keepsFiles.lasts m.inv fun _ _ => Iff.rfl
  simp only [opendirPath, bind_ok, assertThat_ok, exists_const] at h
  obtain ⟨-, h⟩ := h
  split at h
  · rw [pure_ok] at h
    cases h
    refine ⟨lasts (.refl _), .inl ⟨fun d is => ?_, m⟩⟩
    cases is
    rfl
  simp only [bind_ok, Prod.exists] at h
  obtain ⟨r, s1, search, h⟩ := h
  obtain ⟨p, inv1, browsed1, dirAt, found'⟩ := searchFile_inv lay room.two m.inv noZero search
  split at h
  case h_2 =>
    simp only [bind_ok, pure_ok] at h
    obtain ⟨s2, closed, e⟩ := h
    cases e
    obtain ⟨inv2, browsed2⟩ := closeParent_inv (room.two _) inv1 closed
    refine ⟨lasts (browsed1.trans browsed2), .inl ⟨fun d is => ?_, m.browsed inv2 (browsed1.trans browsed2)⟩⟩
    cases is
  rename_i inodeNo number type
  simp only [bind_ok, pure_ok, Prod.exists] at h
  obtain ⟨d, s2, opened, s3, closed, e⟩ := h
  cases e
  have there : sh.live inodeNo ∧ sh.dir inodeNo := by
    cases found' with
    | none no => rw [number] at no; cases no
    | file at_ isFile is fileType => rw [type] at fileType; cases fileType
    | dir at_ isDir is =>
      rw [number] at is
      cases is
      rw [← browsed1.disk, ← browsed1.blockBitmap] at at_
      obtain ⟨live, kind⟩ := inv1.itemDir dirAt.live dirAt.dir at_
      exact ⟨live, kind.1 isDir⟩
    | root is =>
      rw [number] at is
      cases is
      exact ⟨m.inv.tree.naming.top.1, m.inv.tree.naming.top.2.1⟩
  obtain ⟨inv2, browsed2, dirAt2, notRoot⟩ := dirOpen_inv inv1 there.1 there.2 opened
  rw [hold_comm] at inv2
  have small : hold (fun a => slotHandles s.fileTable a + D a) d r.parentDir.inode + 2 < 2 ^ 32 := by
    have := @hold_le (fun a => slotHandles s.fileTable a + D a) d r.parentDir.inode
    have := room.slots (s := s) r.parentDir.inode
    omega
  obtain ⟨inv3, browsed3⟩ := closeParent_inv small inv2 closed
  have mem : d.inode ∈ t.openInodes := (inv3.cache.held _).2 (.inl (by
    rw [hold, notRoot]
    simp only [Bool.false_eq_true, if_false, bump_self]
    omega))
  have at3 := dirAt2.browsed browsed3 (inv2.cache.fresh _ dirAt2.mem) mem
  have looked := browsed1.trans (browsed2.trans browsed3)
  have opened := m.opened inv3 looked at3
  rw [hold, notRoot] at opened
  exact ⟨lasts looked, .inr ⟨d, rfl, notRoot, opened⟩⟩

/-- **`sys_stat`** looks around. -/
theorem statPath_mounted (lay : Layout part n) (m : Mounted part n s sh D) (room : Roomy D) (noZero : 0#8 ∉ path) {r : Option Stat}
    (h : statPath part me s path = .ok (r, t)) : Mounted part n t sh D ∧ FilesLast part s t sh sh noBytes := by
  have lasts : Browsed s t → FilesLast part s t sh sh noBytes := fun looked => looked.keepsFiles.lasts m.inv fun _ _ => Iff.rfl
  simp only [statPath] at h
  split at h
  · rw [pure_ok] at h
    cases h
    exact ⟨m, lasts (.refl _)⟩
  simp only [bind_ok, Prod.exists] at h
  obtain ⟨r, s1, search, h⟩ := h
  obtain ⟨p, inv1, browsed1, dirAt, found⟩ := searchFile_inv lay room.two m.inv noZero search
  split at h
  · simp only [bind_ok, pure_ok] at h
    obtain ⟨s2, closed, e⟩ := h
    cases e
    obtain ⟨inv2, browsed2⟩ := closeParent_inv (room.two _) inv1 closed
    exact ⟨m.browsed inv2 (browsed1.trans browsed2), lasts (browsed1.trans browsed2)⟩
  rename_i inodeNo number
  simp only [bind_ok, pure_ok, Prod.exists] at h
  obtain ⟨addr, s2, opened, s3, shut, s4, closed, e⟩ := h
  cases e
  have live : sh.live inodeNo := by
    have item : ∀ {k j x}, ItemAt (nodeAt part s.disk s.blockBitmap p) k j x → sh.live x.iNo := by
      intro k j x at_
      rw [← browsed1.disk, ← browsed1.blockBitmap] at at_
      exact (inv1.itemDir dirAt.live dirAt.dir at_).1
    cases found with
    | none no => rw [number] at no; cases no
    | file at_ isFile is =>
      rw [number] at is
      cases is
      exact item at_
    | dir at_ isDir is =>
      rw [number] at is
      cases is
      exact item at_
    | root is =>
      rw [number] at is
      cases is
      exact m.inv.tree.naming.top.1
  obtain ⟨inv2, browsed2, -⟩ := inodeOpen_inv inv1 live opened
  have small : hold (fun a => slotHandles s.fileTable a + D a) r.parentDir addr + 2 < 2 ^ 32 := by
    have := @hold_le (fun a => slotHandles s.fileTable a + D a) r.parentDir addr
    have := room.slots (s := s) addr
    omega
  obtain ⟨inv3, browsed3⟩ := inodeClose_inv inv2 small shut
  obtain ⟨inv4, browsed4⟩ := closeParent_inv (room.two _) inv3 closed
  have looked := browsed1.trans (browsed2.trans (browsed3.trans browsed4))
  exact ⟨m.browsed inv4 looked, lasts looked⟩

end Directories

section Paths

variable {part : Partition} {n flags : Nat} {me : Option Nat} {s t : Fs} {sh : Shape} {D : Nat → Nat} {path : List Byte}
  {fdTable fdTable' : Nat → Int}

/-- **`sys_open`** with `O_CREAT` makes a file and opens it, or looks around. -/
theorem openPath_creates (lay : Layout part n) (m : Mounted part n s sh D) (room : Roomy D) (noZero : 0#8 ∉ path)
    (creat : flags &&& oCreat ≠ 0) (may : MayCreate part me s path) {fd : Option Nat}
    (h : openPath part me s fdTable path flags = .ok (fd, t, fdTable')) :
    ∃ sh', Mounted part n t sh' D ∧ FilesLast part s t sh sh' noBytes := by
  obtain ⟨-, inv, steady, keeps⟩ | ⟨p, f, g, addr, made, -, keeps⟩ := openPath_create lay room.two m.inv noZero creat may h
  · exact ⟨sh, m.step inv steady fun _ _ => Iff.rfl, keeps.lasts m.inv fun _ _ => Iff.rfl⟩
  obtain ⟨-, lt, free⟩ := getFreeSlotInGlobal_some made.slot
  have small : flags ≤ 7 := by
    simp only [openPath, bind_ok, defined_ok, exists_const] at h
    obtain ⟨-, h⟩ := h
    split at h
    · -- the slot would be empty
      rw [pure_ok] at h
      cases h
      have filled := congrFun made.fileTable g
      rw [if_pos rfl] at filled
      rw [filled] at free
      cases free
    · simp only [bind_ok, assertThat_ok, exists_const] at h
      exact h.1
  refine ⟨_, m.fill lt free made.inv small made.fileTable made.numbers (fun _ => Shape.insert_dir made.fresh) ?_,
    keeps.lasts m.inv fun _ => Shape.insert_dir made.fresh⟩
  rw [made.number]
  show ¬ (if f = f then false = true else sh.dir f)
  rw [if_pos rfl]
  exact Bool.false_ne_true

/-- **`sys_open`** of a file that is there: the directory it is in stays open, unless it is the
root. -/
theorem openPath_opens (lay : Layout part n) (m : Mounted part n s sh D) (room : Roomy D) (noZero : 0#8 ∉ path)
    (plain : flags &&& oCreat = 0) {fd : Nat} (h : openPath part me s fdTable path flags = .ok (some fd, t, fdTable')) :
    FilesLast part s t sh sh noBytes ∧ ∃ d : Dir, Mounted part n t sh (hold D d) ∧ ((pathNames path).length = 1 → d.isRoot = true) := by
  simp only [openPath, bind_ok, defined_ok, exists_const] at h
  obtain ⟨-, h⟩ := h
  split at h
  · rw [pure_ok] at h
    cases h
  simp only [bind_ok, assertThat_ok, exists_const, Prod.exists] at h
  obtain ⟨small, depth, isDepth, r, s1, search, h⟩ := h
  obtain ⟨q, inv1, browsed1, dirAt, outcome⟩ := searchFile_outcome lay room.two m.inv noZero search
  split at h
  · simp only [bind_ok, pure_ok] at h
    obtain ⟨s2, -, e⟩ := h
    cases e
  rename_i notDir
  simp only [bind_ok] at h
  obtain ⟨depth', isDepth', h⟩ := h
  split at h
  · simp only [bind_ok, pure_ok] at h
    obtain ⟨s2, -, e⟩ := h
    cases e
  split at h
  · simp only [bind_ok, pure_ok] at h
    obtain ⟨s2, -, e⟩ := h
    cases e
  rename_i inodeNo number
  rw [if_neg (not_not.2 plain)] at h
  cases outcome with
  | none _ no => rw [number] at no; cases no
  | dir _ _ _ _ type => exact absurd type notDir
  | root _ _ type => exact absurd type notDir
  | @file pre post k j x _ at_ isFile is _ split _ parent =>
    rw [number] at is
    cases is
    rw [← browsed1.disk, ← browsed1.blockBitmap] at at_
    obtain ⟨-, live, file⟩ := inv1.fileEntry dirAt.live dirAt.dir at_ isFile
    have m1 := m.opened inv1 browsed1 dirAt
    obtain ⟨no, -⟩ | ⟨no, -⟩ | ⟨g, addr, opened, -⟩ := fileOpen_inv m1.inv live h
    · cases no
    · cases no
    obtain ⟨-, lt, free⟩ := getFreeSlotInGlobal_some opened.slot
    have keeps : KeepsFiles part s1 t sh := .of_disk (fileOpen_disk h)
    have lasts : FilesLast part s t sh sh noBytes := (keeps.around browsed1.toCacheOnly (.refl _)).lasts m.inv fun _ _ => Iff.rfl
    refine ⟨lasts, r.parentDir, m1.fill lt free opened.inv small opened.fileTable opened.numbers (fun _ _ => Iff.rfl) ?_,
      fun one => ?_⟩
    · rw [opened.number]
      exact file
    · rw [parent]
      rw [split, List.length_append, List.length_cons] at one
      exact List.eq_nil_of_length_eq_zero (by omega)

/-- **`sys_mkdir`** makes a directory, or looks around. -/
theorem mkdirPath_mounted (lay : Layout part n) (m : Mounted part n s sh D) (room : Roomy D) (noZero : 0#8 ∉ path)
    (may : MayCreate part me s.malloc path) {ok : Option Unit} (h : mkdirPath part me s path = .ok (ok, t)) :
    ∃ sh', Mounted part n t sh' D ∧ FilesLast part s t sh sh' noBytes := by
  obtain ⟨steady, keeps, inv | ⟨p, f, -, -, fresh, inv⟩⟩ := mkdirPath_inv lay room.two m.inv noZero may h
  · exact ⟨sh, m.step inv steady fun _ _ => Iff.rfl, keeps.lasts m.inv fun _ _ => Iff.rfl⟩
  · exact ⟨_, m.step inv steady fun _ => Shape.insert_dir fresh, keeps.lasts m.inv fun _ => Shape.insert_dir fresh⟩

/-- **`sys_unlink`** removes a file no slot has open, or looks around. -/
theorem unlinkPath_mounted (lay : Layout part n) (m : Mounted part n s sh D) (room : Roomy D) (noZero : 0#8 ∉ path)
    {ok : Option Unit} (h : unlinkPath part me s path = .ok (ok, t)) :
    ∃ sh', Mounted part n t sh' D ∧ FilesLast part s t sh sh' noBytes := by
  have held : ∀ a, 0 < slotHandles s.fileTable a + D a →
      (∃ i, i < maxFileOpen ∧ (s.fileTable i).fdInode = .inode a) ∨ sh.dir (s.inodes a).iNo := by
    intro a pos
    by_cases slots : 0 < slotHandles s.fileTable a
    · exact .inl (exists_of_slotHandles slots)
    · exact .inr (m.dirs a (by omega))
  have few : ∀ a, slotHandles s.fileTable a + D a + 3 < 2 ^ 32 := fun a => Nat.lt_of_succ_lt (room.slots a)
  obtain ⟨steady, ⟨inv, keeps⟩ | ⟨f, -, -, inv, keeps⟩⟩ := unlinkPath_inv lay few m.inv noZero held h
  · exact ⟨sh, m.step inv steady fun _ _ => Iff.rfl, keeps.lasts m.inv fun _ _ => Iff.rfl⟩
  · exact ⟨_, m.step inv steady fun _ _ => Iff.rfl, m.inv.lasts (fun _ _ => Iff.rfl) fun m' _ file live => keeps m' live file⟩

/-- **`sys_rmdir`** removes an empty directory nobody has open, or looks around. -/
theorem rmdirPath_mounted (lay : Layout part n) (m : Mounted part n s sh D) (room : Roomy D) (noZero : 0#8 ∉ path)
    (closed : ∀ f, Removable part me s path f →
      (pathNames path).getLast? ≠ some dot ∧ ∀ a ∈ s.openInodes, (s.inodes a).iNo ≠ f)
    {ok : Option Unit} (h : rmdirPath part me s path = .ok (ok, t)) :
    ∃ sh', Mounted part n t sh' D ∧ FilesLast part s t sh sh' noBytes := by
  obtain ⟨steady, keeps, inv | ⟨f, -, -, -, inv⟩⟩ := rmdirPath_inv lay room.slots m.inv noZero (fun f leads => (closed f leads).1)
    (fun f leads _ a pos => (closed f leads).2 a ((m.inv.cache.held a).2 (.inl pos))) h
  · exact ⟨sh, m.step inv steady fun _ _ => Iff.rfl, keeps.lasts m.inv fun _ _ => Iff.rfl⟩
  · exact ⟨_, m.step inv steady fun _ _ => Iff.rfl, keeps.lasts m.inv fun _ _ => Iff.rfl⟩

end Paths

end Sparrow
