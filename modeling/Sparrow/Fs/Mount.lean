import Sparrow.Fs.Handles

/-!
# A new file system

The partition `filesys_init` has just formatted and mounted: one live inode, the root
directory, without entries but `.` and `..`, and one object in the cache, the root's own.
-/

namespace Sparrow
set_option autoImplicit false

/-- The root directory alone. -/
def Shape.root : Shape := ⟨fun m => m = 0, fun m => m = 0, fun _ => 0⟩

section Formatted

variable {part : Partition} {n : Nat} {disk : Image}

/-- The root directory as `partition_format` leaves it. -/
theorem Formatted.newDir (lay : Layout part n) (fresh : Formatted part n disk) :
    NewDir part n (nodeAt part disk (mountedFs part disk).blockBitmap 0) 0 0 := by
  have map := fresh.blockMap lay
  obtain ⟨same, -⟩ := fresh.rootSlot lay
  have sec : ∀ k, (slot part disk 0).sec k = (rootInode part).sec k := same.sec
  have first : (slot part disk 0).sec 0 = part.sb.dataStartLba := sec 0
  have blocks := lay.blocks
  refine ⟨map, ⟨0, by omega, first, map.root⟩, ?_, fun k pos => ?_, fun i lt => ?_, ?_, same.iSize, by decide, by decide⟩
  · show (slot part disk 0).sec 0 ≤ maxLba
    rw [first]
    exact lay.onDisk
  · show (slot part disk 0).sec k = 0
    rw [sec k]
    simp only [rootInode, Inode.sec, Inode.setSec, inodeInit]
    split
    · exact if_neg (Nat.ne_of_gt pos)
    · rfl
  · show disk (512 * (slot part disk 0).sec 0 + i) = _
    rw [first]
    exact fresh.rootBlock i lt
  · show (slot part disk 0).iNo < 2 ^ 32
    rw [same.iNo]
    exact Nat.two_pow_pos 32

theorem Formatted.tree (lay : Layout part n) (fresh : Formatted part n disk) :
    Tree part n disk (mountedFs part disk).blockBitmap .root := by
  have new := fresh.newDir lay
  obtain ⟨same, deny⟩ := fresh.rootSlot lay
  obtain ⟨wf, none⟩ := new.wf lay
  have noEntry : ∀ m x, Shape.root.live m → ¬ entries part disk (mountedFs part disk).blockBitmap m x := by
    rintro m x rfl ⟨ordinary, k, j, at_⟩
    exact none k j x at_ ordinary
  refine ⟨fresh.blockMap lay, ?_, ?_, ⟨⟨rfl, rfl, rfl⟩, fun m x live _ e => absurd e (noEntry m x live),
    fun m m' x y live _ _ _ e => absurd e (noEntry m x live), fun m live _ ne => absurd live ne⟩, ?_⟩
  · rintro m rfl
    decide
  · rintro m rfl
    exact ⟨same.iNo, deny, fun _ => ⟨wf, new.sized lay⟩, fun h => absurd rfl h⟩
  · rintro m m' b rfl rfl _ _
    rfl

/-- Only the number of the root directory is taken. -/
theorem Formatted.inodeBits (fresh : Formatted part n disk) {m : Nat} (lt : m < 4096) :
    (mountedFs part disk).inodeBitmap.Set m ↔ m = 0 := by
  have byte : (mountedFs part disk).inodeBitmap.bits (m / 8) = if m / 8 = 0 then 1#8 else 0#8 := fresh.inodeBitmap (m / 8) (by omega)
  rw [Bitmap.Set, bitmapScanTest_eq_getLsbD, byte]
  split
  · rename_i first
    rw [show 1#8 = 1#8 <<< 0 from rfl, mask_getLsbD (by decide), decide_eq_true_eq]
    omega
  · rename_i other
    simp only [BitVec.getLsbD_zero, Bool.false_eq_true, false_iff]
    omega

/-- The partition once its root directory is open. -/
theorem Formatted.inv (lay : Layout part n) (fresh : Formatted part n disk) :
    FsInv part n { (mountedFs part disk).load part 0 with rootDir := 0 } .root (fun _ => 0) := by
  obtain ⟨same, -⟩ := fresh.rootSlot lay
  have mem : ∀ {a : Nat}, a ∈ [0] ↔ a = 0 := List.mem_singleton
  have new : ((mountedFs part disk).load part 0).inodes 0 = { slot part disk 0 with iOpenCnts := 1 } := rfl
  have number : ∀ a ∈ [0], (((mountedFs part disk).load part 0).inodes a).iNo = 0 := by
    intro a h
    rw [mem.1 h, new]
    exact same.iNo
  refine ⟨⟨fresh.tree lay, ⟨List.nodup_singleton 0, fun a h => ?_, fun a => ?_, fun a h => ?_, fun a h a' h' _ => ?_, fun a h _ => ?_,
    number 0 (mem.2 rfl)⟩, ?_⟩, fun m lt => fresh.inodeBits lt, number⟩
  · rw [mem.1 h]
    exact Nat.one_pos
  · show a ∈ [0] ↔ 0 < 0 ∨ a = 0
    rw [mem]
    exact ⟨.inr, fun h => h.resolve_left (Nat.lt_irrefl 0)⟩
  · rw [mem.1 h]
    show (((mountedFs part disk).load part 0).inodes 0).iOpenCnts = _
    rw [new]
    rfl
  · rw [mem.1 h, mem.1 h']
  · show SameStored (((mountedFs part disk).load part 0).inodes a) (slot part disk (((mountedFs part disk).load part 0).inodes a).iNo)
    rw [number a h, mem.1 h, new]
    exact ⟨rfl, rfl, rfl⟩
  · show part.sb.inodeBitmapSects * 512 = 512
    rw [lay.inodeBitmapSects]

end Formatted

/-- The state in which the system starts. -/
theorem formatAndMount_ok {disk : Image} {startLba secCnt sects n : Nat} {part : Partition} {s : Fs} (lt : secCnt < 2 ^ 32)
    (sizes : formatSizes secCnt = .ok (sects, n)) (blocks : 8 ≤ n) (h : formatAndMount disk startLba secCnt = .ok (part, s)) :
    Layout part n ∧ ∃ disk, Formatted part n disk ∧ s = { (mountedFs part disk).load part 0 with rootDir := 0 } := by
  simp only [formatAndMount, openRootDir, bind_ok, pure_ok, Prod.exists] at h
  obtain ⟨disk', format, part', s0, mount, s', ⟨addr, s1, opened, rfl⟩, h⟩ := h
  cases h
  obtain ⟨onDisk, super, fresh⟩ := partitionFormat_ok format sizes
  have lay := formatPartition_layout lt sizes blocks onDisk
  obtain ⟨rfl, rfl⟩ := mountPartition_ok lt onDisk super mount
  rw [lay.rootInodeNo] at opened
  obtain ⟨mem, -⟩ | ⟨-, -, rfl, rfl⟩ := inodeOpen_ok opened
  · cases mem
  · exact ⟨lay, _, fresh, rfl⟩

/-- The system finds a root directory without entries. -/
theorem formatAndMount_inv {disk : Image} {startLba secCnt sects n : Nat} {part : Partition} {s : Fs} (lt : secCnt < 2 ^ 32)
    (sizes : formatSizes secCnt = .ok (sects, n)) (blocks : 8 ≤ n) (h : formatAndMount disk startLba secCnt = .ok (part, s)) :
    Layout part n ∧ FsInv part n s .root (fun _ => 0) := by
  obtain ⟨lay, disk', fresh, rfl⟩ := formatAndMount_ok lt sizes blocks h
  exact ⟨lay, fresh.inv lay⟩

end Sparrow
