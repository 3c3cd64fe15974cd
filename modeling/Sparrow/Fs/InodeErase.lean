import Sparrow.Fs.Blocks
import Sparrow.Fs.Layout

/-!
# Erasing an inode

`inode_delete` reads the one or two sectors its slot lies in, zeroes 76 bytes of them and
writes them back. On a formatted partition it always returns, and every other slot and every
other sector is as it was, whatever the disk holds (`inodeDelete_erases`).
-/

namespace Sparrow
set_option autoImplicit false

/-- The `struct inode` that `inode_open` returns. -/
def openedInode (part : Partition) (me : Option Nat) (s : Fs) (inodeNo : Nat) : Exec Inode :=
  (inodeOpen part me s inodeNo).map fun r => r.2.inodes r.1

/-- When number `m` is not cached, `inode_open` comes to the same inode, or fails alike, on
both disks. -/
def SameOpened (part : Partition) (disk disk' : Image) (m : Nat) : Prop :=
  ∀ (me : Option Nat) (s : Fs), findOpen me s m s.openInodes = .ok none →
    openedInode part me { s with disk := disk' } m = openedInode part me { s with disk := disk } m

section Frame

variable {part : Partition} {disk disk' : Image} {m n : Nat}

/-- The walk along `open_inodes` does not look at the disk. -/
theorem findOpen_disk (me : Option Nat) (s : Fs) (d : Image) (m : Nat) :
    ∀ l, findOpen me { s with disk := d } m l = findOpen me s m l := by
  intro l
  induction l with
  | nil => rfl
  | cons a rest ih =>
    rw [findOpen, findOpen, ih]

theorem sameOpened_of_slot (fits : TableFits part) (lt : m < 4096) (same : slot part disk' m = slot part disk m) :
    SameOpened part disk disk' m := by
  intro me s miss
  obtain ⟨pos, located⟩ := inodeLocate_of_lt part lt
  have missed : ∀ d, findOpen me { s with disk := d } m s.openInodes = .ok none := fun d => by rw [findOpen_disk, miss]
  by_cases heap : s.mallocOk = true
  · by_cases heap' : s.malloc.mallocOk = true
    · have opened : ∀ d, openedInode part me { s with disk := d } m = .ok { slot part d m with iOpenCnts := 1 } := by
        intro d
        obtain ⟨t, ran, is⟩ := inodeOpen_miss (s := { s with disk := d }) fits lt (missed d) heap heap'
        rw [openedInode, ran]
        exact congrArg Except.ok is
      rw [opened, opened, same]
    · have fails : ∀ d, inodeOpen part me { s with disk := d } m = .error .undefined := by
        intro d
        have again : ¬ ({ s with disk := d } : Fs).malloc.mallocOk = true := heap'
        rw [inodeOpen, missed, ok_bind]
        simp only [located, ok_bind, mustMalloc, defined_of (show ({ s with disk := d } : Fs).mallocOk = true from heap),
          pure, Except.pure, defined_not again]
        rfl
      rw [openedInode, openedInode, fails, fails]
  · have fails : ∀ d, inodeOpen part me { s with disk := d } m = .error .undefined := by
      intro d
      have first : ¬ ({ s with disk := d } : Fs).mallocOk = true := heap
      rw [inodeOpen, missed, ok_bind]
      simp only [located, ok_bind, mustMalloc, defined_not first]
      rfl
    rw [openedInode, openedInode, fails, fails]

end Frame

/-- **`inode_delete`** on a formatted partition, with any contents of the disk. -/
theorem inodeDelete_erases {disk₀ disk₁ : Image} {startLba secCnt sects blocks : Nat} (lt : secCnt < 2 ^ 32)
    (sizes : formatSizes secCnt = .ok (sects, blocks)) (formatted : partitionFormat disk₀ startLba secCnt = .ok disk₁)
    (disk : Image) {n : Nat} (number : n < 4096) :
    ∃ disk', inodeDelete (formatPartition startLba secCnt sects) disk n = .ok disk' ∧
      (∀ i, i < inodeSize → disk' (slotAddr (formatPartition startLba secCnt sects) n + i) = 0#8) ∧
      (∀ m, m < 4096 → m ≠ n → SameOpened (formatPartition startLba secCnt sects) disk disk' m) ∧
      (∀ lba, 512 * (lba + 1) ≤ slotAddr (formatPartition startLba secCnt sects) n ∨
        slotAddr (formatPartition startLba secCnt sects) n + inodeSize ≤ 512 * lba → SameSector disk disk' lba) ∧
      ∀ lba, lba < startLba + 2 + sects + 1 ∨ startLba + 2 + sects + 1 + 608 ≤ lba → SameSector disk disk' lba := by
  obtain ⟨onDisk, -⟩ := partitionFormat_ok formatted sizes
  obtain ⟨sum, -⟩ := formatSizes_ok lt sizes
  have table : (formatPartition startLba secCnt sects).sb.inodeTableLba = startLba + 2 + sects + 1 := rfl
  have fits : TableFits (formatPartition startLba secCnt sects) := by
    have fixed : fixedSects = 611 := rfl
    refine ⟨?_, ?_⟩
    · show startLba + 2 + sects + 1 + 608 ≤ startLba + secCnt
      omega
    · rw [table]
      omega
  obtain ⟨disk', deleted⟩ := inodeDelete_returns fits disk number
  obtain ⟨-, is⟩ := inodeDelete_ok deleted
  have outside : ∀ lba, 512 * (lba + 1) ≤ slotAddr (formatPartition startLba secCnt sects) n ∨
      slotAddr (formatPartition startLba secCnt sects) n + inodeSize ≤ 512 * lba → SameSector disk disk' lba := by
    intro lba apart i inside
    rw [is, splice_out (by omega)]
  refine ⟨disk', deleted, fun i inside => ?_, fun m small ne => ?_, outside, fun lba apart => outside lba ?_⟩
  · rw [is, splice_at inside]
  · apply sameOpened_of_slot fits small
    rw [is, slot_frame ne]
  · -- the table has room for 4096 slots, so the slot lies inside it
    rw [slotAddr, table, inodeSize]
    omega

/-- The root directory is erased from a small partition. -/
theorem inodeDelete_erases_root : ∃ disk₁, partitionFormat (fun _ => 0#8) 1 620 = .ok disk₁ ∧
    ∃ disk', inodeDelete (formatPartition 1 620 1) disk₁ 0 = .ok disk' ∧
      (∀ i, i < inodeSize → disk' (slotAddr (formatPartition 1 620 1) 0 + i) = 0#8) ∧
      (∀ m, m < 4096 → m ≠ 0 → SameOpened (formatPartition 1 620 1) disk₁ disk' m) ∧
      (∀ lba, 512 * (lba + 1) ≤ slotAddr (formatPartition 1 620 1) 0 ∨
        slotAddr (formatPartition 1 620 1) 0 + inodeSize ≤ 512 * lba → SameSector disk₁ disk' lba) ∧
      ∀ lba, lba < 1 + 2 + 1 + 1 ∨ 1 + 2 + 1 + 1 + 608 ≤ lba → SameSector disk₁ disk' lba := by
  have formatted : returns (partitionFormat (fun _ => 0#8) 1 620) (fun _ => true) = true := by decide
  obtain ⟨disk₁, formatted, -⟩ := returns_true.1 formatted
  exact ⟨disk₁, formatted, inodeDelete_erases (by decide) (show formatSizes 620 = .ok (1, 8) from rfl) formatted disk₁ (by decide)⟩

end Sparrow
