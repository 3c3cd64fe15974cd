import Sparrow.Fs.OpenDecision

/-!
# What a failed call leaves behind

A call that returns -1 should leave the bitmaps, the directories, the file table and the open
inodes as they were (`Unchanged`). `sys_open` keeps a file it created when the table of the task
has no place for the descriptor, and the inodes it opened (`fileCreate_failed`, `fileOpen_failed`).
-/

namespace Sparrow
set_option autoImplicit false

/-- Nothing but the counts of open inodes changed, of what was there. -/
structure Undone (part : Partition) (n : Nat) (s t : Fs) : Prop where
  next : s.nextAddr ≤ t.nextAddr
  inodes : ∀ a, a < s.nextAddr → t.inodes a = { s.inodes a with iOpenCnts := (t.inodes a).iOpenCnts }
  rootDir : t.rootDir = s.rootDir
  blockBitmap : t.blockBitmap = s.blockBitmap
  inodeBitmap : t.inodeBitmap = s.inodeBitmap
  step : DiskStep part (fun _ => False) (fun _ => False) s.disk t.disk
  blockBits : ∀ j, j < n → ((diskBits part t.disk).Set j ↔ (diskBits part s.disk).Set j)
  slots : ∀ i, (t.fileTable i).fdInode = (s.fileTable i).fdInode
  files : ∀ i, (s.fileTable i).fdInode ≠ .null → t.fileTable i = s.fileTable i

/-- The bitmaps in memory and on disk, the inodes and data blocks on disk, the open inodes with
their counts and the open files are as before. -/
structure Unchanged (part : Partition) (n : Nat) (s t : Fs) : Prop where
  blockBitmap : t.blockBitmap = s.blockBitmap
  inodeBitmap : t.inodeBitmap = s.inodeBitmap
  step : DiskStep part (fun _ => False) (fun _ => False) s.disk t.disk
  blockBits : ∀ j, j < n → ((diskBits part t.disk).Set j ↔ (diskBits part s.disk).Set j)
  openInodes : ∀ a, a ∈ t.openInodes ↔ a ∈ s.openInodes
  inodes : ∀ a ∈ s.openInodes, t.inodes a = s.inodes a
  slots : ∀ i, (t.fileTable i).fdInode = (s.fileTable i).fdInode
  files : ∀ i, (s.fileTable i).fdInode ≠ .null → t.fileTable i = s.fileTable i

/-- The path leads to nothing, but all its names are looked for: the directory is there, and
the last name is free. -/
def Vacant (part : Partition) (s : Fs) (sh : Shape) (names : List (List Byte)) : Prop :=
  ∃ q, Naming.Search pathLabels (naming part s.disk s.blockBitmap sh) 0 names none q names

/-- There is memory, a number and a slot for a new file. -/
def Able (s : Fs) : Prop :=
  s.mallocOk = true ∧ s.malloc.mallocOk = true ∧ (∃ m, m < 4096 ∧ ¬ s.inodeBitmap.Set m) ∧ getFreeSlotInGlobal s.fileTable ≠ none

/-- The first block behind the table is wanted and there is one block only. Its bit is written to
disk, in a sector that had a clear bit. -/
def Strands (part : Partition) (n : Nat) (v : Vnode) : Prop :=
  DirectFull v ∧ ∃ i, OnlyFree n v.blockBitmap i ∧ ∃ j, j < n ∧ j / 4096 = i / 4096 ∧ ¬ (diskBits part v.disk).Set j

/-- What `sys_open` leaves behind when it fails: the file it created, when the table of the task
has no place for the descriptor, or the bit of a block, on disk; the handle on the directory of a
file that exists, unless it is the root, or the inode of that file, unless the file table is full. -/
def OpenDecision.Leaves (part : Partition) (n : Nat) (t : Fs) (fdTable : Nat → Int) (path : List Byte) : OpenDecision → Prop
  | .refused => False
  | .create d _ => Able t ∧ (¬ NoRoom n (t.vnode d.inode) ∧ (∀ i, 3 ≤ i → i < maxFilesOpenPerProc → fdTable i ≠ -1) ∨
      Strands part n (t.vnode d.inode))
  | .open _ => (pathNames path).length ≠ 1 ∨ getFreeSlotInGlobal t.fileTable ≠ none

section Undone

variable {part : Partition} {n : Nat} {me : Option Nat} {s t u : Fs} {sh : Shape} {H H' : Nat → Nat} {d : Dir} {p : Nat}

theorem Browsed.undone (browsed : Browsed s t) : Undone part n s t := by
  refine ⟨browsed.next, browsed.inodes, browsed.rootDir, browsed.blockBitmap, browsed.inodeBitmap, ?_, fun j _ => ?_, fun i => ?_,
    fun i _ => ?_⟩
  · rw [browsed.disk]
    exact .refl
  · rw [browsed.disk]
  · rw [browsed.fileTable]
  · rw [browsed.fileTable]

theorem Undone.trans (h : Undone part n s t) (h' : Undone part n t u) : Undone part n s u := by
  refine ⟨Nat.le_trans h.next h'.next, fun a lt => ?_, h'.rootDir.trans h.rootDir, h'.blockBitmap.trans h.blockBitmap,
    h'.inodeBitmap.trans h.inodeBitmap, h.step.trans h'.step, fun j lt => (h'.blockBits j lt).trans (h.blockBits j lt),
    fun i => (h'.slots i).trans (h.slots i), fun i used => ?_⟩
  · rw [h'.inodes a (Nat.lt_of_lt_of_le lt h.next), h.inodes a lt]
  · rw [h'.files i (by rw [h.slots i]; exact used), h.files i used]

/-- With as many handles as before nothing at all has changed. -/
theorem Undone.unchanged (undone : Undone part n s t) (inv : FsCore part n s sh H) (inv' : FsCore part n t sh H) :
    Unchanged part n s t := by
  have openInodes : ∀ a, a ∈ t.openInodes ↔ a ∈ s.openInodes := fun a => by
    rw [inv.cache.held, inv'.cache.held, undone.rootDir]
  refine ⟨undone.blockBitmap, undone.inodeBitmap, undone.step, undone.blockBits, openInodes, fun a mem => ?_, undone.slots,
    undone.files⟩
  rw [undone.inodes a (inv.cache.fresh a mem), inv'.cache.counts a ((openInodes a).2 mem), undone.rootDir, ← inv.cache.counts a mem]

/-- A handle more is a change. -/
theorem Cached.changed (cache : Cached part s sh H) (cache' : Cached part t sh H') (rootDir : t.rootDir = s.rootDir) {a : Nat}
    (more : H a < H' a) : ¬ Unchanged part n s t := by
  intro same
  have mem' : a ∈ t.openInodes := (cache'.held a).2 (.inl (by omega))
  have mem := (same.openInodes a).1 mem'
  have count := cache'.counts a mem'
  rw [same.inodes a mem, cache.counts a mem, rootDir] at count
  omega

theorem inodeBitmapAlloc_cases {b : Bitmap} (len : b.btmpBytesLen = 512) :
    (inodeBitmapAlloc b = (none, b) ∧ ∀ m, m < 4096 → b.Set m) ∨
      ∃ f, f < 4096 ∧ ¬ b.Set f ∧ inodeBitmapAlloc b = (some f, bitmapSet b f true) := by
  simp only [inodeBitmapAlloc]
  cases scan : bitmapScan b 1 with
  | none => exact .inl ⟨rfl, fun m lt => bitmapScan_one_none scan m (by rw [len]; omega)⟩
  | some f =>
    obtain ⟨inside, free, -⟩ := bitmapScan_one_some scan
    exact .inr ⟨f, by rw [len] at inside; omega, free, rfl⟩

end Undone

section Open

variable {part : Partition} {n : Nat} {me : Option Nat} {s t : Fs} {sh : Shape} {H : Nat → Nat} {d : Dir} {p flags : Nat}
  {path name : List Byte} {fdTable fdTable' : Nat → Int}

theorem pcbFdInstall_none {g : Nat} (h : pcbFdInstall fdTable g = (none, fdTable')) :
    ∀ i, 3 ≤ i → i < maxFilesOpenPerProc → fdTable i ≠ -1 := by
  simp only [pcbFdInstall] at h
  split at h
  · rename_i none
    rw [List.find?_eq_none] at none
    intro i ge lt
    simp only [maxFilesOpenPerProc] at lt none
    simpa using none i (List.mem_range'_1.2 ⟨ge, by omega⟩)
  · cases h

/-- Where `sys_open` stands after its checks. -/
inductive Decided (part : Partition) (n : Nat) (t : Fs) (sh : Shape) (H : Nat → Nat) (path : List Byte) : OpenDecision → Prop
  | refused (inv : FsInv part n t sh H) : Decided part n t sh H path .refused
  | create {d : Dir} {name : List Byte} {q : Nat} (inv : FsInv part n t sh (hold H d)) (dirAt : DirAt t sh d q) :
      Decided part n t sh H path (.create d name)
  | open {d : Dir} {i : Nat} (inv : FsInv part n t sh (hold H d)) (live : sh.live i)
      (parent : d.isRoot = true ↔ (pathNames path).length = 1) : Decided part n t sh H path (.open i)

theorem openDecision_inv (lay : Layout part n) (room : ∀ a, H a + 2 < 2 ^ 32) (inv : FsInv part n s sh H) (noZero : 0#8 ∉ path)
    {decision : OpenDecision} (h : openDecision part me s path flags = .ok (decision, t)) :
    Browsed s t ∧ Decided part n t sh H path decision := by
  simp only [openDecision, bind_ok, defined_ok, exists_const] at h
  obtain ⟨-, h⟩ := h
  split at h
  · rw [pure_ok] at h
    cases h
    exact ⟨.refl _, .refused inv⟩
  simp only [bind_ok, assertThat_ok, exists_const, Prod.exists] at h
  obtain ⟨-, depth, isDepth, r, s1, search, h⟩ := h
  obtain ⟨q, inv1, browsed, dirAt, outcome⟩ := searchFile_outcome lay room inv noZero search
  have closes : (∃ s2, closeParent me s1 r = .ok s2 ∧ (OpenDecision.refused, s2) = (decision, t)) →
      Browsed s t ∧ Decided part n t sh H path decision := by
    rintro ⟨s2, closed, e⟩
    cases e
    obtain ⟨inv2, browsed2⟩ := closeParent_inv (room _) inv1 closed
    exact ⟨browsed.trans browsed2, .refused inv2⟩
  split at h
  · simp only [bind_ok, pure_ok] at h
    exact closes h
  rename_i notDir
  simp only [bind_ok] at h
  obtain ⟨depth', isDepth', h⟩ := h
  split at h
  · simp only [bind_ok, pure_ok] at h
    exact closes h
  rename_i same
  have whole : (pathNames path).length = (pathNames r.searchedPath).length := by
    rw [← pathDepthCnt_ok isDepth, ← pathDepthCnt_ok isDepth']
    exact not_not.1 same
  split at h
  · split at h
    · simp only [bind_ok, pure_ok] at h
      exact closes h
    · rw [pure_ok] at h
      cases h
      exact ⟨browsed, .create inv1 dirAt⟩
  · rename_i i number
    split at h
    · simp only [bind_ok, pure_ok] at h
      exact closes h
    · rw [pure_ok] at h
      cases h
      refine ⟨browsed, ?_⟩
      cases outcome with
      | none _ no => rw [number] at no; cases no
      | root _ _ type => exact absurd type notDir
      | dir _ _ _ _ type => exact absurd type notDir
      | @file pre post k j x walk at_ isFile number' type split searched parent =>
        obtain rfl : i = x.iNo := Option.some.inj (number.symm.trans number')
        obtain rfl := searched_whole split searched whole
        obtain ⟨live, -⟩ := inv.itemDir dirAt.live dirAt.dir at_
        refine .open inv1 live (parent.trans ?_)
        rw [split, List.length_append, List.length_singleton, Nat.add_eq_right, List.length_eq_zero_iff]

theorem Strands.noRoom {v : Vnode} (strands : Strands part n v) : NoRoom n v := by
  obtain ⟨direct, i, only, -⟩ := strands
  exact .inr ⟨12, by omega, direct.full, blockRef_none (by omega) (by omega) direct.noTable, .inr ⟨rfl, i, only⟩⟩

/-- Refusing an entry writes the bitmap on disk only when it strands a block. -/
theorem Crowded.bits_iff (lay : Layout part n) {v v' : Vnode} (crowded : Crowded part n v v') :
    (∀ j, j < n → ((diskBits part v'.disk).Set j ↔ (diskBits part v.disk).Set j)) ↔ ¬ Strands part n v := by
  cases crowded with
  | full blocks same =>
    refine ⟨fun _ => ?_, fun _ j _ => by rw [same]⟩
    rintro ⟨direct, -⟩
    exact (blocks 12 (by omega)).1 (blockRef_none (by omega) (by omega) direct.noTable)
  | block _ _ _ none same =>
    refine ⟨fun _ => ?_, fun _ j _ => by rw [same]⟩
    rintro ⟨-, i, only, -⟩
    exact only.clear (none i only.inside)
  | @table i direct _ only written _ _ =>
    -- after it the bits of the sector are all set
    have bits : ∀ j, j < n → ((diskBits part v'.disk).Set j ↔ j / 4096 = i / 4096 ∨ (diskBits part v.disk).Set j) := by
      intro j lt
      rw [diskBits_synced lay only.inside written]
      by_cases sector : j / 4096 = i / 4096
      · rw [if_pos sector, set_bitmapSet]
        refine ⟨fun _ => .inl sector, fun _ => ?_⟩
        split
        · rfl
        · rename_i ne
          exact only.others j lt ne
      · rw [if_neg sector, or_iff_right sector]
    constructor
    · rintro kept ⟨-, i', only', j, lt, sector, clear⟩
      have same : i = i' := by
        by_contra ne
        exact only.clear (only'.others i only.inside ne)
      exact clear ((kept j lt).1 ((bits j lt).2 (.inl (same ▸ sector))))
    · intro kept j lt
      rw [bits j lt]
      refine ⟨fun either => either.elim (fun sector => ?_) id, .inr⟩
      by_contra clear
      exact kept ⟨direct, i, only, j, lt, sector, clear⟩

theorem sameCounts {x y : Inode} (e : x = y) : x = { y with iOpenCnts := x.iOpenCnts } := by rw [e]

/-- What is undone without opening or closing anything keeps the invariant. -/
theorem FsInv.undone (inv : FsInv part n s sh H) (undone : Undone part n s t) (openInodes : t.openInodes = s.openInodes)
    (inodes : ∀ a, a < s.nextAddr → t.inodes a = s.inodes a) : FsInv part n t sh H := by
  refine inv.storage (B := fun _ => False) (fun a mem => inodes a (inv.cache.fresh a mem)) undone.next openInodes undone.rootDir
    undone.step.toDiskFrame (fun _ _ _ _ => id) (fun i set => ?_) ?_ undone.inodeBitmap
  · rw [undone.blockBitmap]
    exact set
  · rw [undone.blockBitmap]
    exact inv.tree.map

/-- Creating a file fails early, or for want of room, or when the file is there. -/
theorem fileCreate_failed (lay : Layout part n) (inv : FsInv part n s sh H) (dirAt : DirAt s sh d p)
    (h : fileCreate part me s fdTable d name flags = .ok (none, t, fdTable')) :
    (¬ Able s ∧ FsInv part n t sh H ∧ Undone part n s t) ∨
      (Able s ∧ NoRoom n (s.vnode d.inode) ∧
        ∃ v, Crowded part n (s.vnode d.inode) v ∧ t.disk = v.disk ∧
          (¬ Strands part n (s.vnode d.inode) → FsInv part n t sh H ∧ Undone part n s t)) ∨
      (Able s ∧ ¬ NoRoom n (s.vnode d.inode) ∧ (∀ i, 3 ≤ i → i < maxFilesOpenPerProc → fdTable i ≠ -1) ∧
        ∃ f, ¬ s.inodeBitmap.Set f ∧ t.inodeBitmap = bitmapSet s.inodeBitmap f true) := by
  obtain ⟨alloc, full⟩ | ⟨f, low, clear, alloc⟩ := inodeBitmapAlloc_cases inv.len
  · have alloc' : inodeBitmapAlloc s.malloc.inodeBitmap = (none, s.inodeBitmap) := alloc
    have same : t = s.malloc := by
      simp only [fileCreate, alloc'] at h
      split at h
      · cases h
        rfl
      · cases h
        rfl
    subst same
    refine .inl ⟨?_, inv.malloc, browsed_malloc.undone⟩
    rintro ⟨-, -, ⟨m, lt, free⟩, -⟩
    exact free (full m lt)
  have old : ∀ a, a < s.nextAddr → (s.withNew me f).inodes a = s.inodes a := fun a lt => if_neg (Nat.ne_of_lt lt)
  have vnode : (s.withNew me f).vnode d.inode = s.vnode d.inode := by
    rw [Fs.vnode, old _ (inv.cache.fresh _ dirAt.mem)]
    rfl
  obtain ⟨-, -, unable, early⟩ | ⟨g, e, ok, v, ⟨first, second, slot⟩, made, synced, ends⟩ := fileCreate_ok alloc h
  · refine .inl ⟨fun able => unable ⟨able.1, able.2.1, able.2.2.2⟩, ?_⟩
    rw [bitmapSet_undo clear] at early
    obtain rfl | rfl | rfl := early
    · exact ⟨inv.malloc, browsed_malloc.undone⟩
    · exact ⟨inv.malloc.malloc, (browsed_malloc.trans browsed_malloc).undone⟩
    · have undone : Undone part n s { s.withNew me f with inodeBitmap := s.inodeBitmap } :=
        ⟨Nat.le_succ _, fun a lt => sameCounts (old a lt), rfl, rfl, rfl, .refl, fun _ _ => .rfl, fun _ => rfl,
          fun _ _ => rfl⟩
      exact ⟨inv.undone undone rfl old, undone⟩
  have able : Able s := ⟨first, second, ⟨f, low, clear⟩, by rw [slot]; exact Option.some_ne_none g⟩
  obtain ⟨wf, -⟩ := inv.dirWf dirAt
  rw [vnode] at synced
  obtain ⟨rfl, crowded⟩ | ⟨rfl, k, j, placed, firstFree⟩ := syncDirEntry_placed lay inv.tree.map wf.slots.toBlocks synced
  · obtain ⟨-, -, -, rfl⟩ | ⟨no, -⟩ := ends
    · have refused := crowded.refused lay
      refine .inr (.inl ⟨able, crowded.noRoom, v, crowded, rfl, fun kept => ?_⟩)
      rw [bitmapSet_undo clear]
      have same : ∀ a, a < s.nextAddr → (if a = d.inode then v.inode else (s.withNew me f).inodes a) = s.inodes a := by
        intro a lt
        split
        · rename_i e
          rw [e, refused.inode]
          rfl
        · exact old a lt
      obtain ⟨-, -, null⟩ := getFreeSlotInGlobal_some slot
      have undone : Undone part n s { (((s.withNew me f).setFile g ⟨0, flags, .inode s.nextAddr⟩).setVnode d.inode v).setFile g
          File.empty with inodeBitmap := s.inodeBitmap } := by
        refine ⟨Nat.le_succ _, fun a lt => sameCounts (same a lt), rfl, refused.blockBitmap, rfl, refused.step,
          (crowded.bits_iff lay).2 kept, fun i => ?_, fun i used => ?_⟩
        · show (if i = g then File.empty else if i = g then _ else s.fileTable i : File).fdInode = _
          split
          · rename_i e
            rw [e, null]
            rfl
          · rfl
        · show (if i = g then File.empty else if i = g then _ else s.fileTable i : File) = _
          have other : i ≠ g := fun e => used (by rw [e]; exact null)
          rw [if_neg other, if_neg other]
      exact ⟨inv.undone undone rfl same, undone⟩
    · cases no
  · obtain ⟨no, -⟩ | ⟨-, installed, created⟩ := ends
    · cases no
    refine .inr (.inr ⟨able, placed.room wf.slots.toBlocks firstFree, pcbFdInstall_none installed, f, clear, ?_⟩)
    simp only [fileCreated, bind_ok, pure_ok] at created
    obtain ⟨_, -, _, -, _, -, rfl⟩ := created
    rfl

/-- Opening a file fails for want of a slot, or with the inode open. -/
theorem fileOpen_failed {i : Nat} (inv : FsInv part n s sh H) (live : sh.live i)
    (h : fileOpen part me s fdTable i flags = .ok (none, t, fdTable')) :
    (getFreeSlotInGlobal s.fileTable = none ∧ t = s) ∨
      (getFreeSlotInGlobal s.fileTable ≠ none ∧ t.rootDir = s.rootDir ∧ ∃ a, FsInv part n t sh (bump H a)) := by
  simp only [fileOpen] at h
  split at h
  · rename_i none
    rw [pure_ok] at h
    cases h
    exact .inl ⟨none, rfl⟩
  rename_i g slot
  simp only [bind_ok, Prod.exists] at h
  obtain ⟨addr, s1, opened, h⟩ := h
  obtain ⟨inv1, browsed, mem, -, -⟩ := inodeOpen_inv inv live opened
  have some : getFreeSlotInGlobal s.fileTable ≠ Option.none := by
    rw [slot]
    exact Option.some_ne_none g
  split at h
  · rw [pure_ok] at h
    cases h
    exact .inr ⟨some, browsed.rootDir, addr, (inv1.setFile g _).setFile g _⟩
  · simp only [pure_ok] at h
    obtain ⟨-, rfl, -⟩ : _ ∧ _ ∧ _ := by simpa only [Prod.mk.injEq] using h
    refine .inr ⟨some, ?_, addr, ?_⟩
    · split
      · exact browsed.rootDir
      · exact browsed.rootDir
    · split
      · exact (inv1.setFile g _).setDeny mem true
      · exact inv1.setFile g _

end Open

end Sparrow
