import Sparrow.Fs.FileRead

/-!
# Writing to a full disk

`file_write` returns -1 from the middle of its allocations when the block bitmap has no clear
bit left. At that point every bit is set (`writeFile_full`), so the blocks it got until then
stay taken, and nothing has changed only if there was none to get (`failedWrite_unchanged_iff`).
-/

namespace Sparrow
set_option autoImplicit false

/-- No block of the partition is free. -/
def FullMap (n : Nat) (b : Bitmap) : Prop := ∀ j, j < n → b.Set j

section Growing

variable {part : Partition} {n has will : Nat} {v v' : Vnode} {g : Growth}

/-- The loops that allocate blocks stop early at a full bitmap only. -/
theorem growBlocks_full (lay : Layout part n) : ∀ (l : List Nat) {v : Vnode} {all : Nat → Nat} {g : Growth},
    BlockMap part n v.blockBitmap → growBlocks part l v all = .ok g → g.ok = false → FullMap n g.v.blockBitmap := by
  intro l
  induction l with
  | nil =>
    intro v all g _ ran failed
    cases ran
    cases failed
  | cons blockIdx rest ih =>
    intro v all g map ran failed
    simp only [growBlocks] at ran
    split at ran
    · rename_i b alloc
      obtain ⟨-, rfl, full⟩ | ⟨i, -, -, -, -, some_, -⟩ := blockBitmapAlloc_cases lay map alloc
      · cases ran
        exact full
      · cases some_
    · rename_i lba b alloc
      obtain ⟨none, -⟩ | ⟨i, pos, inside, -, -, -, rfl⟩ := blockBitmapAlloc_cases lay map alloc
      · cases none
      · split at ran
        · simp only [bind_ok, assertThat_ok, pure_ok, exists_const] at ran
          obtain ⟨-, ino, -, disk, -, ran⟩ := ran
          exact ih (map.set pos inside true) ran failed
        · simp only [bind_ok, pure_ok] at ran
          obtain ⟨ino, -, disk, -, ran⟩ := ran
          exact ih (map.set pos inside true) ran failed

/-- With a full bitmap they stop at once. -/
theorem growBlocks_none (lay : Layout part n) (map : BlockMap part n v.blockBitmap) (full : FullMap n v.blockBitmap)
    {l : List Nat} {all : Nat → Nat} (ran : growBlocks part l v all = .ok g) : g.v = v := by
  cases l with
  | nil =>
    cases ran
    rfl
  | cons blockIdx rest =>
    simp only [growBlocks] at ran
    split at ran
    · rename_i b alloc
      obtain ⟨-, rfl, -⟩ | ⟨i, -, -, -, -, some_, -⟩ := blockBitmapAlloc_cases lay map alloc
      · cases ran
        rfl
      · cases some_
    · rename_i lba b alloc
      obtain ⟨none, -⟩ | ⟨i, -, inside, clear, -⟩ := blockBitmapAlloc_cases lay map alloc
      · cases none
      · exact absurd (full i inside) clear

/-- What is left when the blocks of a growing file cannot be had: no free block, and
nothing has changed if there was none before. -/
theorem growFile_full (lay : Layout part n) (map : BlockMap part n v.blockBitmap)
    (ran : growFile part v has will = .ok g) (failed : g.ok = false) :
    FullMap n g.v.blockBitmap ∧ (FullMap n v.blockBitmap → g.v = v) := by
  simp only [growFile] at ran
  split at ran
  · simp only [bind_ok, defined_ok, assertThat_ok, exists_const] at ran
    obtain ⟨-, -, ran⟩ := ran
    exact ⟨growBlocks_full lay _ map ran failed, fun full => growBlocks_none lay map full ran⟩
  split at ran
  · split at ran
    · rename_i b alloc
      obtain ⟨-, rfl, full⟩ | ⟨i, -, -, -, -, some_, -⟩ := blockBitmapAlloc_cases lay map alloc
      · cases ran
        exact ⟨full, fun _ => rfl⟩
      · cases some_
    · rename_i lba b alloc
      obtain ⟨none, -⟩ | ⟨i, pos, inside, clear, -, -, rfl⟩ := blockBitmapAlloc_cases lay map alloc
      · cases none
      simp only [bind_ok, assertThat_ok, exists_const] at ran
      obtain ⟨-, g', grown, ran⟩ := ran
      refine ⟨?_, fun full => absurd (full i inside) clear⟩
      split at ran
      · rename_i failed'
        cases ran
        exact growBlocks_full lay _ (map.set pos inside true) grown failed'
      · rename_i ok
        simp only [bind_ok, pure_ok] at ran
        obtain ⟨disk, -, rfl⟩ := ran
        exact absurd failed ok
  · simp only [bind_ok, assertThat_ok, exists_const] at ran
    obtain ⟨-, table, -, g', grown, ran⟩ := ran
    split at ran
    · rename_i failed'
      cases ran
      exact ⟨growBlocks_full lay _ map grown failed', fun full => growBlocks_none lay map full grown⟩
    · rename_i ok
      simp only [bind_ok, pure_ok] at ran
      obtain ⟨disk, -, rfl⟩ := ran
      exact absurd failed ok

theorem sameBlocks_enough (ran : sameBlocks v has = .ok g) : g.ok = true := by
  simp only [sameBlocks] at ran
  split at ran
  · cases ran
    rfl
  · simp only [bind_ok, assertThat_ok, pure_ok, exists_const] at ran
    obtain ⟨-, table, -, rfl⟩ := ran
    rfl

/-- A file without a block gets none when none is free. -/
theorem writeFile_noBlock (lay : Layout part n) {buf : Image} {count fdPos fdPos' : Nat} {r : Option Nat}
    (ran : writeFile part v fdPos buf count = .ok (r, v', fdPos')) (map : BlockMap part n v.blockBitmap) (none_ : v.inode.sec 0 = 0)
    (full : FullMap n v.blockBitmap) : r = none ∧ fdPos' = fdPos := by
  simp only [writeFile, bind_ok, Prod.exists] at ran
  obtain ⟨ok, w, first, ran⟩ := ran
  simp only [firstBlock, if_pos none_] at first
  split at first
  · rw [pure_ok] at first
    cases first
    simp only [if_true, pure_ok] at ran
    cases ran
    exact ⟨rfl, rfl⟩
  · rename_i lba b alloc
    obtain ⟨no, -⟩ | ⟨i, -, inside, clear, -⟩ := blockBitmapAlloc_cases lay map alloc
    · cases no
    · exact absurd (full i inside) clear

/-- **`file_write` returns -1** after its checks when no block is free any more, and has then
changed nothing if none was free before. -/
theorem writeFile_full (lay : Layout part n) (map : BlockMap part n v.blockBitmap) {buf : Image} {count fdPos fdPos' : Nat}
    (ran : writeFile part v fdPos buf count = .ok (none, v', fdPos')) :
    FullMap n v'.blockBitmap ∧ (FullMap n v.blockBitmap → v' = v) := by
  simp only [writeFile, bind_ok, Prod.exists] at ran
  obtain ⟨ok, w, first, ran⟩ := ran
  -- the first block
  have start : (ok = false ∧ w = v ∧ FullMap n v.blockBitmap) ∨
      (ok = true ∧ BlockMap part n w.blockBitmap ∧ (FullMap n v.blockBitmap → w = v)) := by
    simp only [firstBlock] at first
    split at first
    · split at first
      · rename_i b alloc
        obtain ⟨-, rfl, full⟩ | ⟨i, -, -, -, -, some_, -⟩ := blockBitmapAlloc_cases lay map alloc
        · cases first
          exact .inl ⟨rfl, rfl, full⟩
        · cases some_
      · rename_i lba b alloc
        obtain ⟨none, -⟩ | ⟨i, pos, inside, clear, -, -, rfl⟩ := blockBitmapAlloc_cases lay map alloc
        · cases none
        simp only [bind_ok, assertThat_ok, pure_ok, exists_const] at first
        obtain ⟨-, disk, -, first⟩ := first
        cases first
        exact .inr ⟨rfl, map.set pos inside true, fun full => absurd (full i inside) clear⟩
    · cases first
      exact .inr ⟨rfl, map, fun _ => rfl⟩
  obtain ⟨rfl, rfl, full⟩ | ⟨rfl, map', same⟩ := start
  · simp only [if_true, pure_ok] at ran
    cases ran
    exact ⟨full, fun _ => rfl⟩
  simp only [Bool.true_eq_false, if_false, bind_ok, assertThat_ok, exists_const, ite_bind_ok] at ran
  obtain ⟨-, g, grown, ran⟩ := ran
  split at ran
  · rename_i failed
    cases ran
    split at grown
    · rw [sameBlocks_enough grown] at failed
      cases failed
    · obtain ⟨full, none⟩ := growFile_full lay map' grown failed
      refine ⟨full, fun before => ?_⟩
      obtain rfl := same before
      exact none before
  · simp only [bind_ok, pure_ok, Prod.exists] at ran
    obtain ⟨v₃, fdPos₃, -, disk, -, ran⟩ := ran
    cases ran

end Growing

/-- A call of `file_write` on the file at `addr` that has passed its checks of the size and of
the heap and returns -1: it has run out of blocks. -/
structure OutOfBlocks (part : Partition) (me : Option Nat) (s : Fs) (fdIdx addr : Nat) (buf : Image) (count : Nat) (t : Fs) :
    Prop where
  file : (s.fileTable fdIdx).fdInode = .inode addr
  size : addU32 (s.inodes addr).iSize count ≤ 512 * 140
  heap : s.mallocOk = true ∧ s.malloc.mallocOk = true
  failed : fileWrite part me s fdIdx buf count = .ok (none, t)

/-- Size and block addresses of the inode, the indirect table, the block bitmap and the disk are
as before. -/
structure WriteUndone (addr : Nat) (s t : Fs) : Prop where
  size : (t.inodes addr).iSize = (s.inodes addr).iSize
  sectors : ∀ k, (t.inodes addr).sec k = (s.inodes addr).sec k
  table : SameSector s.disk t.disk ((s.inodes addr).sec 12)
  blockBitmap : t.blockBitmap = s.blockBitmap
  disk : t.disk = s.disk

theorem OutOfBlocks.writeFile {part : Partition} {me : Option Nat} {s t : Fs} {fdIdx addr count : Nat} {buf : Image}
    (out : OutOfBlocks part me s fdIdx addr buf count t) :
    ∃ v' fdPos', Sparrow.writeFile part (s.vnode addr) (s.fileTable fdIdx).fdPos buf count = .ok (none, v', fdPos') ∧
      t = (s.malloc.malloc.setVnode addr v').setFile fdIdx { s.fileTable fdIdx with fdPos := fdPos' } := by
  have failed := out.failed
  simp only [fileWrite, out.file, bind_ok, defined_ok, exists_const] at failed
  obtain ⟨-, failed⟩ := failed
  rw [if_neg (Nat.not_lt.2 out.size), if_neg (by simp [out.heap.1]), if_neg (by simp [out.heap.2])] at failed
  simp only [bind_ok, pure_ok, Prod.exists] at failed
  obtain ⟨r, v', fdPos', written, failed⟩ := failed
  cases failed
  exact ⟨v', fdPos', written, by rw [← out.file]⟩

/-- **A failed `file_write`** leaves everything as it was exactly if no block was free before the
call. -/
theorem failedWrite_unchanged_iff {part : Partition} {n : Nat} {me : Option Nat} {s t : Fs} {fdIdx addr count : Nat}
    {buf : Image} (lay : Layout part n) (map : BlockMap part n s.blockBitmap)
    (out : OutOfBlocks part me s fdIdx addr buf count t) : WriteUndone addr s t ↔ FullMap n s.blockBitmap := by
  obtain ⟨v', fdPos', ran, rfl⟩ := out.writeFile
  obtain ⟨full, same⟩ := writeFile_full lay (show BlockMap part n (s.vnode addr).blockBitmap from map) ran
  constructor
  · intro undone j lt
    have bits : v'.blockBitmap = s.blockBitmap := undone.blockBitmap
    rw [← bits]
    exact full j lt
  · intro before
    obtain rfl := same before
    have inode : ((s.malloc.malloc.setVnode addr (s.vnode addr)).setFile fdIdx
        { s.fileTable fdIdx with fdPos := fdPos' }).inodes addr = s.inodes addr := by
      simp [Fs.vnode, Fs.setFile, Fs.setVnode, Fs.setInode]
    exact ⟨by rw [inode], fun k => by rw [inode], fun _ _ => rfl, rfl, rfl⟩

/-- The small partition with an empty file and the blocks 1 and 2 left. -/
def twoLeft : Fs := { smallFile with blockBitmap := ⟨512, fun i => if i = 0 then 0xf9#8 else 0xff#8⟩ }

/-- The same without any block. -/
def noneLeft : Fs := { smallFile with blockBitmap := ⟨512, fun _ => 0xff#8⟩ }

/-- All bits of such a byte are set. -/
theorem Bitmap.set_of_ones {b : Bitmap} {i : Nat} (ones : b.bits (i / 8) = 0xff#8) : b.Set i := by
  have all : ∀ k, k < 8 → (0xff#8).getLsbD k = true := by decide
  rw [Bitmap.Set, bitmapScanTest_eq_getLsbD, ones]
  exact all _ (Nat.mod_lt _ (by omega))

theorem noneLeft_set (i : Nat) : noneLeft.blockBitmap.Set i := Bitmap.set_of_ones rfl

theorem noneLeft_map : BlockMap smallPartition 388 noneLeft.blockBitmap :=
  ⟨rfl, noneLeft_set 0, fun i _ _ => noneLeft_set i⟩

theorem failedWrite_unchanged_small :
    ∃ t, OutOfBlocks smallPartition none noneLeft 3 0 zeros 1 t ∧ WriteUndone 0 noneLeft t := by
  have ran : returns (fileWrite smallPartition none noneLeft 3 zeros 1) (fun r => r.1 == none) = true := by decide +kernel
  obtain ⟨⟨r, t⟩, failed, isNone⟩ := returns_true.1 ran
  simp only [beq_iff_eq] at isNone
  subst isNone
  have out : OutOfBlocks smallPartition none noneLeft 3 0 zeros 1 t := ⟨rfl, by decide, by decide, failed⟩
  exact ⟨t, out, (failedWrite_unchanged_iff smallPartition_layout noneLeft_map out).2 fun j _ => noneLeft_set j⟩

/-- Then a block is freed, and the file written again. -/
def writeLater (t : Fs) : Exec (Option Nat × Fs) :=
  fileWrite smallPartition none { t with blockBitmap := bitmapSet t.blockBitmap 3 false } 3 zeros 1000

/-- A write of three blocks takes the two that are left and returns -1. When there is a free
block again, the next write finds a block address where it expects none. -/
theorem failedWrite_keeps_blocks :
    ∃ t, OutOfBlocks smallPartition none twoLeft 3 0 zeros 1500 t ∧ ¬ WriteUndone 0 twoLeft t ∧
      writeLater t = .error .assert := by
  have ran : returns (fileWrite smallPartition none twoLeft 3 zeros 1500)
      (fun r => r.1 == none && (r.2.inodes 0).sec 1 == 615 && stops (writeLater r.2) .assert) = true := by decide +kernel
  obtain ⟨⟨r, t⟩, failed, test⟩ := returns_true.1 ran
  simp only [Bool.and_eq_true, beq_iff_eq, stops_true] at test
  obtain ⟨⟨isNone, second⟩, later⟩ := test
  subst isNone
  refine ⟨t, ⟨rfl, by decide, by decide, failed⟩, fun undone => ?_, later⟩
  have same := undone.sectors 1
  rw [second] at same
  cases same

end Sparrow
