import Sparrow.Fs.Create

/-!
# Releasing an inode

`inode_release` gives the blocks of an inode back, one after another, then its bit in the
inode bitmap and its slot. The inode has lost its name before: it is not part of the tree
any more, and nothing it owned belongs to the tree (`inodeRelease_core`).
-/

namespace Sparrow
set_option autoImplicit false

/-- The blocks in `own` were given back, and nothing else was done. -/
structure Freed (part : Partition) (n : Nat) (s t : Fs) (own : Nat → Prop) : Prop where
  bits : ∀ j, t.blockBitmap.Set j ↔ s.blockBitmap.Set j ∧ ¬ own (part.sb.dataStartLba + j)
  map : BlockMap part n s.blockBitmap → BlockMap part n t.blockBitmap
  step : DiskStep part (fun _ => False) (fun _ => False) s.disk t.disk
  rest : t = { s with blockBitmap := t.blockBitmap, disk := t.disk }
  synced : ∀ X, SyncedBut part X s.disk s.blockBitmap →
    SyncedBut part (fun j => X j ∧ ∀ i, own (part.sb.dataStartLba + i) → j / 4096 ≠ i / 4096) t.disk t.blockBitmap

section Free

variable {part : Partition} {n : Nat} {s t u : Fs} {own own' : Nat → Prop}

theorem Freed.none : Freed part n s s (fun _ => False) :=
  ⟨fun j => by simp, id, .refl, rfl, fun X h => h.mono fun j x => ⟨x, fun _ h => h.elim⟩⟩

theorem Freed.trans (h : Freed part n s t own) (h' : Freed part n t u own') :
    Freed part n s u (fun lba => own lba ∨ own' lba) := by
  refine ⟨fun j => ?_, fun m => h'.map (h.map m), h.step.trans h'.step, ?_, fun X x => ?_⟩
  · rw [h'.bits, h.bits, not_or, and_assoc]
  · rw [h'.rest, h.rest]
  · refine (h'.synced _ (h.synced X x)).mono ?_
    rintro j ⟨⟨x, one⟩, two⟩
    exact ⟨x, fun i o => o.elim (one i) (two i)⟩

theorem Freed.congr (h : Freed part n s t own) (same : ∀ lba, part.sb.dataStartLba ≤ lba → (own' lba ↔ own lba)) :
    Freed part n s t own' := by
  have same' : ∀ j, own' (part.sb.dataStartLba + j) ↔ own (part.sb.dataStartLba + j) := fun j => same _ (Nat.le_add_right _ _)
  refine ⟨fun j => by rw [same', h.bits], h.map, h.step, h.rest, fun X x => (h.synced X x).mono ?_⟩
  rintro j ⟨x, rest⟩
  exact ⟨x, fun i o => rest i ((same' i).1 o)⟩

/-- One block given back. -/
theorem freeBlock_ok (lay : Layout part n) {i : Nat} (inside : i < n)
    (h : freeBlock part s (part.sb.dataStartLba + i) = .ok t) :
    Freed part n s t (fun lba => lba = part.sb.dataStartLba + i) := by
  simp only [freeBlock, lay.index inside, bitmapClear, bind_ok, assertThat_ok, defined_ok, pure_ok, exists_const] at h
  obtain ⟨pos, b, ⟨-, rfl⟩, disk, written, rfl⟩ := h
  have synced : syncBlock part s.disk (bitmapSet s.blockBitmap i false) (part.sb.dataStartLba + i) = .ok disk := by
    rw [syncBlock, lay.index inside]
    exact written
  refine ⟨fun j => ?_, fun map => map.set pos inside false, syncBlock_step lay inside synced, rfl, fun X x => ?_⟩
  · rw [set_bitmapSet, Nat.add_left_cancel_iff]
    by_cases e : j = i
    · simp [e]
    · simp [e]
  · refine (x.setSector lay inside synced).mono ?_
    rintro j ⟨x, other⟩
    exact ⟨x, fun l is => by rw [Nat.add_left_cancel is]; exact other⟩

/-- The loop of `inode_release` over the blocks. -/
theorem freeBlocks_ok (lay : Layout part n) : ∀ (l : List Nat) {s t : Fs},
    (∀ lba ∈ l, lba ≠ 0 → ∃ i, i < n ∧ lba = part.sb.dataStartLba + i) → freeBlocks part l s = .ok t →
    Freed part n s t (fun lba => lba ≠ 0 ∧ lba ∈ l) := by
  intro l
  induction l with
  | nil =>
    intro s t _ h
    rw [freeBlocks, pure_ok] at h
    subst h
    exact Freed.none.congr fun lba _ => by simp
  | cons first rest ih =>
    intro s t data h
    rw [freeBlocks] at h
    simp only [ite_bind_ok] at h
    obtain ⟨s1, one, h⟩ := h
    have freed : Freed part n s s1 (fun lba => lba ≠ 0 ∧ lba = first) := by
      split at one
      · rename_i some
        obtain ⟨i, inside, is⟩ := data first List.mem_cons_self some
        rw [is] at one
        refine (freeBlock_ok lay inside one).congr fun lba _ => ?_
        rw [is]
        constructor
        · exact fun h => h.2
        · intro e
          exact ⟨by omega, e⟩
      · rename_i none
        rw [pure_ok] at one
        subst one
        simp only [ne_eq, not_not] at none
        exact Freed.none.congr fun lba _ => by simp [none]
    refine (freed.trans (ih (fun lba mem => data lba (List.mem_cons_of_mem _ mem)) h)).congr fun lba _ => ?_
    rw [List.mem_cons, and_or_left]

/-- The collected blocks are the references of the inode, the table apart. -/
theorem releaseBlocks_ok (lay : Layout part n) {ino : Inode} (blocks : BlocksWf part n s.blockBitmap (blockRef s.disk ino))
    {l : List Nat}
    (collected : (ino.sec 12 ≠ 0 ∧ freeBlock part s (ino.sec 12) = .ok t ∧ l = (List.range 12).map ino.sec ++
        (List.range 128).map fun i => word32 (shifted s.disk (512 * ino.sec 12)) (4 * i)) ∨
      (ino.sec 12 = 0 ∧ t = s ∧ l = (List.range 12).map ino.sec))
    (h : freeBlocks part l t = .ok u) : Freed part n s u (Owns (blockRef s.disk ino)) := by
  have data : ∀ k, k < 141 → blockRef s.disk ino k ≠ 0 → ∃ i, i < n ∧ blockRef s.disk ino k = part.sb.dataStartLba + i := by
    intro k lt has
    obtain ⟨i, inside, is, -⟩ := blocks.block k lt has
    exact ⟨i, inside, is⟩
  obtain ⟨has, freed, rfl⟩ | ⟨none, rfl, rfl⟩ := collected
  · obtain ⟨i, inside, is⟩ := data 140 (by omega) has
    rw [blockRef_table] at is
    have one := freeBlock_ok lay inside (is ▸ freed)
    have mem : ∀ lba, lba ∈ (List.range 12).map ino.sec ++
        (List.range 128).map (fun i => word32 (shifted s.disk (512 * ino.sec 12)) (4 * i)) ↔
        ∃ k, k < 140 ∧ blockRef s.disk ino k = lba := by
      intro lba
      simp only [List.mem_append, List.mem_map, List.mem_range]
      constructor
      · rintro (⟨k, lt, rfl⟩ | ⟨k, lt, rfl⟩)
        · exact ⟨k, by omega, blockRef_direct lt⟩
        · refine ⟨12 + k, by omega, ?_⟩
          rw [blockRef_indirect (by omega) (by omega) has, Nat.add_sub_cancel_left]
          rfl
      · rintro ⟨k, lt, rfl⟩
        by_cases direct : k < 12
        · exact .inl ⟨k, direct, (blockRef_direct direct).symm⟩
        · refine .inr ⟨k - 12, by omega, ?_⟩
          rw [blockRef_indirect (by omega) lt has]
          rfl
    have others := freeBlocks_ok lay _ (fun lba h some => by
      obtain ⟨k, lt, rfl⟩ := (mem lba).1 h
      exact data k (by omega) some) h
    refine (one.trans others).congr fun lba _ => ?_
    rw [mem]
    constructor
    · rintro ⟨some, k, lt, rfl⟩
      by_cases last : k = 140
      · exact .inl (by rw [last, blockRef_table, is])
      · exact .inr ⟨some, k, by omega, rfl⟩
    · rintro (rfl | ⟨some, k, lt, rfl⟩)
      · exact ⟨by omega, 140, by omega, is⟩
      · exact ⟨some, k, by omega, rfl⟩
  · have others := freeBlocks_ok lay _ (fun lba h some => by
      simp only [List.mem_map, List.mem_range] at h
      obtain ⟨k, lt, rfl⟩ := h
      rw [← blockRef_direct lt] at some ⊢
      exact data k (by omega) some) h
    refine others.congr fun lba _ => and_congr_right fun some => ?_
    simp only [List.mem_map, List.mem_range]
    constructor
    · rintro ⟨k, lt, rfl⟩
      by_cases direct : k < 12
      · exact ⟨k, direct, (blockRef_direct direct).symm⟩
      · by_cases last : k = 140
        · rw [last, blockRef_table] at some
          exact absurd none some
        · rw [blockRef_none (by omega) (by omega) none] at some
          exact absurd rfl some
    · rintro ⟨k, lt, rfl⟩
      exact ⟨k, by omega, blockRef_direct lt⟩

end Free

/-- The inode `f` lost its name: what it owns belongs to nobody else. -/
structure Orphan (part : Partition) (n : Nat) (s : Fs) (sh : Shape) (f : Nat) : Prop where
  gone : ¬ sh.live f
  low : f < 4096
  number : (slot part s.disk f).iNo = f
  blocks : BlocksWf part n s.blockBitmap (blockRef s.disk (slot part s.disk f))
  apart : ∀ m, sh.live m → ∀ lba, owned part s.disk m lba → ¬ owned part s.disk f lba
  cached : ∀ a ∈ s.openInodes, (s.inodes a).iNo = f → SameStored (s.inodes a) (slot part s.disk f)

/-- What releasing inode `f` did. -/
structure Released (part : Partition) (s t : Fs) (f : Nat) : Prop where
  blockBits : ∀ j, t.blockBitmap.Set j ↔ s.blockBitmap.Set j ∧ ¬ owned part s.disk f (part.sb.dataStartLba + j)
  inodeBitmap : t.inodeBitmap = bitmapSet s.inodeBitmap f false
  synced : ∀ X, SyncedBut part X s.disk s.blockBitmap → SyncedBut part
    (fun j => X j ∧ ∀ i, owned part s.disk f (part.sb.dataStartLba + i) → j / 4096 ≠ i / 4096) t.disk t.blockBitmap
  inodeSynced : InodeSynced part t.disk t.inodeBitmap
  fileTable : t.fileTable = s.fileTable
  rootDir : t.rootDir = s.rootDir
  next : s.nextAddr ≤ t.nextAddr
  inodes : ∀ a, a < s.nextAddr → t.inodes a = { s.inodes a with iOpenCnts := (t.inodes a).iOpenCnts }
  sub : ∀ a ∈ t.openInodes, a ∈ s.openInodes

section Release

variable {part : Partition} {n f : Nat} {me : Option Nat} {s t : Fs} {sh : Shape} {H : Nat → Nat}

/-- The state in which `inode_release` closes the inode `f`, its blocks having been given back
on the way from `s` to `s2`. -/
def Fs.cleared (part : Partition) (s s2 : Fs) (f : Nat) : Fs :=
  { s2.malloc with
    disk := splice (splice s2.disk (512 * part.sb.inodeBitmapLba) (512 * 1) (bitmapSet s.inodeBitmap f false).bits)
      (slotAddr part f) inodeSize fun _ => 0#8
    inodeBitmap := bitmapSet s.inodeBitmap f false }

/-- The object of an orphan is what its slot says. -/
theorem Orphan.opened {addr : Nat} {s1 : Fs} (inv : FsCore part n s sh H) (orphan : Orphan part n s sh f)
    (h : inodeOpen part me s f = .ok (addr, s1)) :
    (∀ k, k < 141 → blockRef s1.disk (s1.inodes addr) k = blockRef s.disk (slot part s.disk f) k) ∧
      BlocksWf part n s1.blockBitmap (blockRef s1.disk (s1.inodes addr)) := by
  obtain ⟨-, browsed1, -, number1, how⟩ := inodeOpen_core inv orphan.number h
  have stored : SameStored (s1.inodes addr) (slot part s.disk f) := by
    obtain ⟨mem, -⟩ | ⟨-, -, -, new⟩ := how
    · have same := browsed1.inodes addr (inv.cache.fresh addr mem)
      have cached := orphan.cached addr mem (by rw [same] at number1; exact number1)
      rw [same]
      exact ⟨cached.iNo, cached.iSize, cached.iSectors⟩
    · rw [new]
      exact ⟨rfl, rfl, rfl⟩
  have refs : ∀ k, k < 141 → blockRef s1.disk (s1.inodes addr) k = blockRef s.disk (slot part s.disk f) k := by
    intro k lt
    rw [browsed1.disk]
    exact blockRef_congr stored.sec (fun _ _ _ => rfl) lt
  refine ⟨refs, ?_⟩
  rw [browsed1.blockBitmap]
  exact orphan.blocks.congr refs fun _ _ h => h

/-- What `inode_release` does between opening the inode and closing it. -/
theorem inodeRelease_steps (lay : Layout part n) (inv : FsCore part n s sh H) (orphan : Orphan part n s sh f)
    (h : inodeRelease part me s f = .ok t) :
    ∃ addr s1 s2, FsCore part n s1 sh (bump H addr) ∧ Browsed s s1 ∧ Freed part n s1 s2 (owned part s.disk f) ∧
      inodeClose me (s.cleared part s2 f) addr = .ok t := by
  simp only [inodeRelease, bind_ok, assertThat_ok, exists_const, Prod.exists] at h
  obtain ⟨addr, s1, opened, -, h⟩ := h
  obtain ⟨core1, browsed1, -⟩ := inodeOpen_core inv orphan.number opened
  obtain ⟨refs, blocks⟩ := orphan.opened inv opened
  have parts : ∃ s2, Freed part n s1 s2 (owned part s.disk f) ∧ ∃ disk3 disk4,
      bitmapSync s2.disk part.sb.inodeBitmapLba (bitmapSet s2.inodeBitmap f false) f = .ok disk3 ∧
      inodeDelete part disk3 f = .ok disk4 ∧
      inodeClose me { s2.malloc with disk := disk4, inodeBitmap := bitmapSet s2.inodeBitmap f false } addr = .ok t := by
    split at h
    · rename_i has
      simp only [bind_ok, ideRead_ok, mustMalloc_ok, pure_ok, bitmapClear, defined_ok, exists_const] at h
      obtain ⟨table, ⟨-, rfl⟩, s', freed, _, rfl, s2, all, b, ⟨-, rfl⟩, disk3, synced, s3, ⟨-, rfl⟩, disk4, deleted, closed⟩ := h
      exact ⟨s2, (releaseBlocks_ok lay blocks (.inl ⟨has, freed, rfl⟩) all).congr fun lba _ => (Owns.congr refs).symm,
        disk3, disk4, synced, deleted, closed⟩
    · rename_i none
      simp only [bind_ok, mustMalloc_ok, pure_ok, bitmapClear, defined_ok, exists_const] at h
      obtain ⟨_, rfl, s2, all, b, ⟨-, rfl⟩, disk3, synced, s3, ⟨-, rfl⟩, disk4, deleted, closed⟩ := h
      exact ⟨s2, (releaseBlocks_ok lay blocks (.inr ⟨by simpa using none, rfl, rfl⟩) all).congr fun lba _ =>
        (Owns.congr refs).symm, disk3, disk4, synced, deleted, closed⟩
  obtain ⟨s2, freed, disk3, disk4, synced3, deleted, closed⟩ := parts
  have bitmap : s2.inodeBitmap = s.inodeBitmap := by rw [freed.rest]; exact browsed1.inodeBitmap
  rw [bitmap] at synced3 closed
  obtain rfl := bitmapSync_inode orphan.low synced3
  obtain ⟨-, rfl⟩ := inodeDelete_ok deleted
  exact ⟨addr, s1, s2, core1, browsed1, freed, closed⟩

/-- On the disk only the slot of the inode and the two bitmaps change. -/
theorem Freed.releaseFrame {s1 s2 : Fs} (lay : Layout part n) (browsed : Browsed s s1)
    (freed : Freed part n s1 s2 (owned part s.disk f)) (low : f < 4096) :
    DiskFrame part (fun _ => False) (fun m => m = f) s.disk (s.cleared part s2 f).disk := by
  have frame2 : DiskFrame part (fun _ => False) (fun m => m = f) s.disk s2.disk := by
    rw [← browsed.disk]
    exact freed.step.toDiskFrame.mono (fun _ h => h) (fun _ h => h.elim)
  have frame3 := diskFrame_inodeBits lay s2.disk (bitmapSet s.inodeBitmap f false).bits
  exact frame2.trans ((frame3.mono (fun _ h => h) (fun _ h => h.elim)).trans
    (diskStep_slot lay _ (fun _ => 0#8) low).toDiskFrame)

/-- The live inodes stay as they are. -/
theorem Freed.untouched {s1 s2 : Fs} (lay : Layout part n) (inv : FsCore part n s sh H) (orphan : Orphan part n s sh f)
    (browsed : Browsed s s1) (freed : Freed part n s1 s2 (owned part s.disk f)) {m : Nat} (live : sh.live m) :
    Untouched part s.disk s.blockBitmap (s.cleared part s2 f).disk (s.cleared part s2 f).blockBitmap m := by
  refine (freed.releaseFrame lay browsed orphan.low).untouched (inv.tree.node m live)
    (Nat.lt_trans (inv.tree.low m live) (by decide)) (fun e => orphan.gone (e ▸ live)) (fun _ _ => id) fun i o set => ?_
  show s2.blockBitmap.Set i
  rw [freed.bits, browsed.blockBitmap]
  exact ⟨set, orphan.apart m live _ o⟩

theorem FsCore.cleared {H' : Nat → Nat} {s1 s2 : Fs} (lay : Layout part n) (inv : FsCore part n s sh H) (orphan : Orphan part n s sh f)
    (core1 : FsCore part n s1 sh H') (browsed1 : Browsed s s1) (freed : Freed part n s1 s2 (owned part s.disk f)) :
    FsCore part n (s.cleared part s2 f) sh H' := by
  have tree := inv.tree.frame (fun m live => freed.untouched lay inv orphan browsed1 live) (freed.map core1.tree.map)
  refine ⟨tree, core1.cache.storage ?_ ?_ ?_ ?_ fun m live => ?_, inv.len⟩
  · intro a _
    rw [Fs.cleared, freed.rest]
    rfl
  · rw [Fs.cleared, freed.rest]
    exact Nat.le_refl _
  · rw [Fs.cleared, freed.rest]; rfl
  · rw [Fs.cleared, freed.rest]; rfl
  · rw [browsed1.disk]
    exact (freed.untouched lay inv orphan browsed1 live).slot

/-- **`inode_release`** of an inode without a name. -/
theorem inodeRelease_core (lay : Layout part n) (inv : FsCore part n s sh H) (orphan : Orphan part n s sh f)
    (room : ∀ a, H a + 2 < 2 ^ 32) (h : inodeRelease part me s f = .ok t) :
    FsCore part n t sh H ∧ Released part s t f := by
  obtain ⟨addr, s1, s2, core1, browsed1, freed, closed⟩ := inodeRelease_steps lay inv orphan h
  have core2 := inv.cleared lay orphan core1 browsed1 freed
  obtain ⟨core, browsed2, -⟩ := inodeClose_core core2 (room addr) closed
  have rootDir : t.rootDir = s.rootDir := by
    rw [browsed2.rootDir, ← browsed1.rootDir, Fs.cleared, freed.rest]
    rfl
  have behind : 512 * part.sb.inodeBitmapLba ≤ slotAddr part f := by
    have := lay.inodeTableLba
    simp only [slotAddr]
    omega
  refine ⟨core, fun j => ?_, browsed2.inodeBitmap, fun X synced => ?_, fun i lt => ?_, ?_, rootDir, ?_, fun a lt => ?_, fun a mem => ?_⟩
  · rw [browsed2.blockBitmap, ← browsed1.blockBitmap]
    exact freed.bits j
  · rw [browsed2.disk, browsed2.blockBitmap]
    rw [← browsed1.disk, ← browsed1.blockBitmap] at synced
    exact ((freed.synced X synced).behind lay (Nat.le_refl _)).behind lay behind
  · rw [browsed2.disk, browsed2.inodeBitmap]
    dsimp only [Fs.cleared]
    have := lay.inodeTableLba
    rw [splice_out (by simp only [slotAddr]; omega), splice_at (by omega)]
  · rw [browsed2.fileTable, ← browsed1.fileTable, Fs.cleared, freed.rest]
    rfl
  · refine Nat.le_trans browsed1.next (Nat.le_trans (Nat.le_of_eq ?_) browsed2.next)
    rw [freed.rest]
    rfl
  · have inodes : s2.inodes = s1.inodes := by rw [freed.rest]
    have next : s2.nextAddr = s1.nextAddr := by rw [freed.rest]
    have lt' : a < s2.malloc.nextAddr := next ▸ Nat.lt_of_lt_of_le lt browsed1.next
    have old : s2.malloc.inodes a = { s.inodes a with iOpenCnts := (s1.inodes a).iOpenCnts } := by
      rw [← browsed1.inodes a lt, ← inodes]
      rfl
    refine (browsed2.inodes a lt').trans ?_
    dsimp only [Fs.cleared]
    rw [old]
  · rw [core.cache.held, rootDir] at mem
    exact (inv.cache.held a).2 mem

/-- The live inodes do not notice `inode_release`. -/
theorem inodeRelease_untouched (lay : Layout part n) (inv : FsCore part n s sh H) (orphan : Orphan part n s sh f)
    (room : ∀ a, H a + 2 < 2 ^ 32) (h : inodeRelease part me s f = .ok t) {m : Nat} (live : sh.live m) :
    Untouched part s.disk s.blockBitmap t.disk t.blockBitmap m := by
  obtain ⟨addr, s1, s2, core1, browsed1, freed, closed⟩ := inodeRelease_steps lay inv orphan h
  obtain ⟨-, browsed2, -⟩ := inodeClose_core (inv.cleared lay orphan core1 browsed1 freed) (room addr) closed
  rw [browsed2.disk, browsed2.blockBitmap]
  exact freed.untouched lay inv orphan browsed1 live

end Release

section Leave

variable {part : Partition} {n : Nat} {me : Option Nat} {s t : Fs} {sh : Shape} {H : Nat → Nat} {d : Dir} {p k₀ j₀ : Nat} {x : Item}
  {v : Vnode}

/-- An inode other than the directory that loses an entry is not touched. -/
theorem Removed.untouched (inv : FsInv part n s sh H) (dirAt : DirAt s sh d p) (rem : Removed part n (s.vnode d.inode) v x k₀ j₀)
    {m : Nat} (live : sh.live m) (ne : m ≠ p) : Untouched part s.disk s.blockBitmap v.disk v.blockBitmap m := by
  obtain ⟨wf, -, -, refs⟩ := inv.dirWf dirAt
  have lowP := inv.tree.low p dirAt.live
  have block := rem.was.block
  have mine : owned part s.disk p (blockRef s.disk (s.inodes d.inode) k₀) :=
    ⟨rem.was.has, k₀, by omega, (refs k₀ (by omega)).symm⟩
  have others : ∀ lba, owned part s.disk m lba → lba ≠ blockRef s.disk (s.inodes d.inode) k₀ := by
    rintro lba o rfl
    exact ne (inv.tree.apart m p _ live dirAt.live o mine)
  refine rem.step.toDiskFrame.untouched (inv.tree.node m live) (Nat.lt_trans (inv.tree.low m live) (by decide)) ?_ others
    fun i o set => ?_
  · show m ≠ (s.inodes d.inode).iNo % 256
    rw [dirAt.number, Nat.mod_eq_of_lt lowP]
    exact ne
  · obtain ⟨same, -⟩ | ⟨-, -, -, -, l, -, -, is, cleared⟩ := rem.blocks
    · rw [same]
      exact set
    · rw [cleared, set_bitmapSet, if_neg fun e => others _ o (by rw [e]; exact is.symm)]
      exact set

/-- The directory that loses an entry, in its slot. -/
theorem Removed.parent (lay : Layout part n) (inv : FsInv part n s sh H) (dirAt : DirAt s sh d p)
    (rem : Removed part n (s.vnode d.inode) v x k₀ j₀) :
    v.inode.iNo = p ∧ Stored part v.disk p v.inode ∧ DirWf part n (nodeAt part v.disk v.blockBitmap p) p (sh.up p) ∧
      (∀ k j y, ItemAt (nodeAt part v.disk v.blockBitmap p) k j y ↔ ItemAt v k j y) ∧
      ∀ k, k < 141 → blockRef v.disk (slot part v.disk p) k = blockRef v.disk v.inode k := by
  have wf' := rem.wf lay (inv.dirWf dirAt).1
  have mod : (s.vnode d.inode).inode.iNo % 256 = p := by
    show (s.inodes d.inode).iNo % 256 = p
    rw [dirAt.number, Nat.mod_eq_of_lt (inv.tree.low p dirAt.live)]
  have stored : Stored part v.disk p v.inode := (mod ▸ rem.stored).stored wf'.range
  obtain ⟨wf'', items', refs'⟩ := wf'.move (nodeAt part v.disk v.blockBitmap p) stored.same (fun _ _ _ _ => rfl) fun _ _ h => h
  refine ⟨?_, stored, wf'', items', refs'⟩
  rw [rem.inode]
  exact dirAt.number

/-- It has one entry less. -/
theorem Removed.entries (lay : Layout part n) (inv : FsInv part n s sh H) (dirAt : DirAt s sh d p)
    (rem : Removed part n (s.vnode d.inode) v x k₀ j₀) (y : Item) :
    entries part v.disk v.blockBitmap p y ↔ entries part s.disk s.blockBitmap p y ∧ y ≠ x := by
  obtain ⟨wf, -, items, -⟩ := inv.dirWf dirAt
  obtain ⟨-, -, -, items', -⟩ := rem.parent lay inv dirAt
  constructor
  · rintro ⟨ord, k, j, at_⟩
    obtain ⟨old, other⟩ := (rem.items ..).1 ((items' ..).1 at_)
    refine ⟨⟨ord, k, j, (items ..).1 old⟩, fun e => other ?_⟩
    exact wf.numbers _ _ _ _ _ _ old rem.was ord rem.ordinary (congrArg Item.iNo e)
  · rintro ⟨⟨ord, k, j, at_⟩, other⟩
    refine ⟨ord, k, j, (items' ..).2 ((rem.items ..).2 ⟨(items ..).2 at_, ?_⟩)⟩
    rintro ⟨rfl, rfl⟩
    exact other (((items ..).2 at_).unique rem.was)

/-- An inode loses its name: the tree goes on without it. -/
theorem FsInv.leave (lay : Layout part n) (inv : FsInv part n s sh H) (dirAt : DirAt s sh d p)
    (has : entries part s.disk s.blockBitmap p x) (empty : sh.dir x.iNo → ∀ y, ¬ entries part s.disk s.blockBitmap x.iNo y)
    (rem : Removed part n (s.vnode d.inode) v x k₀ j₀) :
    FsCore part n (s.setVnode d.inode v) (sh.remove x.iNo) H ∧
      Orphan part n (s.setVnode d.inode v) (sh.remove x.iNo) x.iNo := by
  obtain ⟨-, sized, -, refs⟩ := inv.dirWf dirAt
  obtain ⟨numberP, stored, wf'', items', refs'⟩ := rem.parent lay inv dirAt
  obtain ⟨liveF, -, kind⟩ := inv.tree.naming.named p x dirAt.live dirAt.dir has
  have ne : p ≠ x.iNo := fun e => empty (e ▸ dirAt.dir) x (e ▸ has)
  have lowF := inv.tree.low x.iNo liveF
  have own : ∀ lba, owned part v.disk p lba → owned part s.disk p lba := by
    rintro lba ⟨some, k, lt, is⟩
    have is : blockRef v.disk v.inode k = lba := (refs' k lt).symm.trans is
    refine ⟨some, k, lt, ?_⟩
    rw [← is, rem.kept lt (is ▸ some)]
    exact (refs k lt).symm
  have untouched := fun m => rem.untouched inv dirAt (m := m)
  have gone := untouched x.iNo liveF ne.symm
  have number : ∀ a ∈ s.openInodes, ((s.setVnode d.inode v).inodes a).iNo = (s.inodes a).iNo := by
    intro a _
    show (if a = d.inode then v.inode else s.inodes a).iNo = _
    split
    · rename_i e
      rw [e, numberP, dirAt.number]
    · rfl
  refine ⟨⟨?_, ?_, inv.len⟩, ?_⟩
  · refine inv.tree.remove rfl dirAt.live dirAt.dir has empty (fun m live neP _ => untouched m live neP) (rem.map inv.tree.map) ?_
      (rem.entries lay inv dirAt) own
    refine ⟨stored.same.iNo.trans numberP, stored.deny, fun _ => ⟨wf'', ?_⟩, fun h => absurd dirAt.dir h⟩
    exact (rem.sized sized).congr stored.same.iSize items'
  · refine inv.cache.store _ _ rfl (Nat.le_refl _) (fun _ _ => rfl) rfl (numberP.trans dirAt.number.symm) (by rw [rem.inode]; rfl)
      (fun _ => by rw [numberP]; exact stored.same.symm) fun a mem neA live => ⟨live.1, ?_⟩
    exact (untouched _ live.1 fun e => neA (inv.cache.addr_eq mem dirAt.mem e dirAt.number)).slot
  · refine ⟨fun h => h.2 rfl, Nat.lt_trans lowF (by decide), ?_, (gone.node (inv.tree.node _ liveF) Iff.rfl fun _ => rfl).blocks,
      fun m live lba o oF => ?_, fun a mem e => ?_⟩
    · show (slot part v.disk x.iNo).iNo = x.iNo
      rw [gone.slot]
      exact (inv.tree.node _ liveF).number
    · have oF := (gone.owned lba).1 oF
      by_cases e : m = p
      · rw [e] at o
        exact ne (inv.tree.apart p x.iNo lba dirAt.live liveF (own lba o) oF)
      · exact live.2 (inv.tree.apart m x.iNo lba live.1 liveF (((untouched m live.1 e).owned lba).1 o) oF)
    · rw [number a mem] at e
      have other : a ≠ d.inode := fun h => ne (by rw [← e, h, dirAt.number])
      have same : (s.setVnode d.inode v).inodes a = s.inodes a := if_neg other
      show SameStored ((s.setVnode d.inode v).inodes a) (slot part v.disk x.iNo)
      rw [same, gone.slot, ← e]
      exact inv.cache.stored a mem (inv.alive a mem)

/-- What deleting the entry `x` and releasing its inode leaves. A handle on the inode is
still in the cache if there was one. -/
structure Deleted (part : Partition) (n : Nat) (s t : Fs) (sh : Shape) (H : Nat → Nat) (d : Dir) (x : Item) : Prop where
  core : FsCore part n t (sh.remove x.iNo) H
  bits : ∀ m, m < 4096 → (t.inodeBitmap.Set m ↔ (sh.remove x.iNo).live m)
  sub : ∀ a ∈ t.openInodes, a ∈ s.openInodes
  live : sh.live x.iNo
  steady : Steady s t
  kept : BitsKept part (fun _ => False) s t
  steps : ∃ v k j, Removed part n (s.vnode d.inode) v x k j ∧ Released part (s.setVnode d.inode v) t x.iNo

/-- **`delete_dir_entry`** takes out the entry with the number. -/
theorem deleteEntry_removed (lay : Layout part n) (inv : FsInv part n s sh H) (dirAt : DirAt s sh d p)
    (has : entries part s.disk s.blockBitmap p x) {ok : Bool} (deleted : deleteDirEntry part (s.vnode d.inode) x.iNo = .ok (ok, v)) :
    ∃ k j, Removed part n (s.vnode d.inode) v x k j := by
  obtain ⟨wf, -, items, -⟩ := inv.dirWf dirAt
  obtain ⟨ord, k, j, at_⟩ := has
  have at' := (items k j x).2 at_
  obtain ⟨-, -, none⟩ | ⟨-, k', j', x', number, rem⟩ := deleteDirEntry_ok lay wf.slots deleted
  · exact absurd rfl (none k j x at' ord)
  obtain ⟨rfl, rfl⟩ := wf.numbers _ _ _ _ _ _ at' rem.was ord rem.ordinary number.symm
  rw [← at'.unique rem.was] at rem
  exact ⟨k, j, rem⟩

/-- **`delete_dir_entry` and `inode_release`**, as `sys_unlink` and `dir_remove` call them. -/
theorem deleteEntry_inv (lay : Layout part n) (inv : FsInv part n s sh H) (dirAt : DirAt s sh d p)
    (has : entries part s.disk s.blockBitmap p x) (empty : sh.dir x.iNo → ∀ y, ¬ entries part s.disk s.blockBitmap x.iNo y)
    (room : ∀ a, H a + 2 < 2 ^ 32) {ok : Bool} (deleted : deleteDirEntry part (s.vnode d.inode) x.iNo = .ok (ok, v))
    (released : inodeRelease part me (s.setVnode d.inode v) x.iNo = .ok t) : Deleted part n s t sh H d x ∧
      ∀ m, (sh.remove x.iNo).live m → m ≠ p → Untouched part s.disk s.blockBitmap t.disk t.blockBitmap m := by
  obtain ⟨liveF, -⟩ := inv.tree.naming.named p x dirAt.live dirAt.dir has
  obtain ⟨k, j, rem⟩ := deleteEntry_removed lay inv dirAt has deleted
  obtain ⟨core, orphan⟩ := inv.leave lay dirAt has empty rem
  obtain ⟨core', rel⟩ := inodeRelease_core lay core orphan room released
  refine ⟨⟨core', fun m lt => ?_, rel.sub, liveF, ⟨rel.next, fun a lt => ?_, fun i => by rw [rel.fileTable]; rfl,
    fun i => .inl (by rw [rel.fileTable]; rfl)⟩, ⟨fun X synced => ?_, fun _ => rel.inodeSynced⟩, v, k, j, rem, rel⟩,
    fun m live ne => (rem.untouched inv dirAt live.1 ne).trans (inodeRelease_untouched lay core orphan room released live)⟩
  · rw [rel.inodeBitmap, set_bitmapSet]
    show _ ↔ sh.live m ∧ m ≠ x.iNo
    by_cases e : m = x.iNo
    · simp [e]
    · rw [if_neg e]
      exact (inv.bits m lt).trans ⟨fun h => ⟨h, e⟩, And.left⟩
  · rw [rel.inodes a lt]
    show (if a = d.inode then v.inode else s.inodes a).iNo = _
    split
    · rename_i e
      rw [e, rem.inode]
      rfl
    · rfl
  · exact (rel.synced X (rem.synced X synced)).mono fun _ h => .inl h.1

end Leave

end Sparrow
