import Sparrow.Fs.Syscall

/-!
# Formatting and mounting a partition

`partition_format`, `mount_partition` and `open_root_dir`.
-/

namespace Sparrow
set_option autoImplicit false

/-- `DIV_ROUND_UP(X, BITS_PER_SECTOR)` in 32-bit arithmetic. -/
def bitmapSectsFor (x : Nat) : Nat := addU32 x 4095 / 4096

/-- The loop of `partition_format` that sizes the block bitmap, with the number of its
sectors and of the blocks it describes. It runs until two turns agree. -/
def sizeBitmap (freeSects : Nat) : Nat → Nat → Exec (Nat × Nat)
  | 0, _ => throw .diverge
  | fuel + 1, sects =>
    let bitLen := subU32 freeSects sects
    let sects' := bitmapSectsFor bitLen
    if sects' = sects then return (sects, bitLen)
    else sizeBitmap freeSects fuel sects'

/-- Sectors of the boot block, the super block, the inode bitmap and the inode table. -/
def fixedSects : Nat := 1 + 1 + 1 + 608

/-- The size of the block bitmap in sectors and the number of data blocks. Without a
turn of the loop the latter has no value. -/
def formatSizes (secCnt : Nat) : Exec (Nat × Nat) := do
  let freeSects := subU32 secCnt fixedSects
  defined (bitmapSectsFor freeSects ≠ 0)
  sizeBitmap freeSects (freeSects + 2) (bitmapSectsFor freeSects)

/-- The super block written for a partition. -/
def formatSuper (startLba secCnt sects : Nat) : SuperBlock where
  magic := 0x19590318
  secCnt := secCnt
  inodeCnt := maxFilesPerPart
  partLbaBase := startLba
  blockBitmapLba := startLba + 2
  blockBitmapSects := sects
  inodeBitmapLba := startLba + 2 + sects
  inodeBitmapSects := 1
  inodeTableLba := startLba + 2 + sects + 1
  inodeTableSects := 608
  dataStartLba := startLba + 2 + sects + 1 + 608
  rootInodeNo := 0
  dirEntrySize := direntSize

/-- The words of a super block on disk; the padding is whatever the stack holds, here
zero. -/
def SuperBlock.word (sb : SuperBlock) (w : Nat) : Nat :=
  [sb.magic, sb.secCnt, sb.inodeCnt, sb.partLbaBase, sb.blockBitmapLba, sb.blockBitmapSects,
    sb.inodeBitmapLba, sb.inodeBitmapSects, sb.inodeTableLba, sb.inodeTableSects, sb.dataStartLba,
    sb.rootInodeNo, sb.dirEntrySize].getD w 0

/-- The super block in a sector buffer. -/
def decodeSuper (m : Image) : SuperBlock where
  magic := word32 m 0
  secCnt := word32 m 4
  inodeCnt := word32 m 8
  partLbaBase := word32 m 12
  blockBitmapLba := word32 m 16
  blockBitmapSects := word32 m 20
  inodeBitmapLba := word32 m 24
  inodeBitmapSects := word32 m 28
  inodeTableLba := word32 m 32
  inodeTableSects := word32 m 36
  dataStartLba := word32 m 40
  rootInodeNo := word32 m 44
  dirEntrySize := word32 m 48

/-- `buf[i] &= ~(1 << k)` for the `k` below `bits`. -/
def clearLow (byte : Byte) : Nat → Byte
  | 0 => byte
  | k + 1 => clearLow byte k &&& ~~~(1#8 <<< k)

/-- The block bitmap as `partition_format` prepares it: block 0 is taken by the root
directory, and from the last byte on the rest of its sector is taken, but for the valid
bits of that byte. -/
def formatBlockBitmap (bitLen : Nat) : Image :=
  let lastByte := bitLen / 8
  let lastSize := 512 - lastByte % 512
  let buf : Image := fun i => if i = 0 then 1#8 else 0#8
  let buf := fill buf lastByte lastSize 0xff#8
  fun i => if i = lastByte then clearLow (buf i) (bitLen % 8) else buf i

/-- The inode table of a new file system: the root directory and nothing else. -/
def formatInodeTable (dataStartLba : Nat) : Image := fun i =>
  if i < inodeSize then
    Inode.image { (inodeInit 0).setSec 0 dataStartLba with iSize := 2 * direntSize } i
  else 0#8

/-- `partition_format`. Its buffer has the size of the largest table; what is stored past
its end is undefined. -/
def partitionFormat (disk : Image) (startLba secCnt : Nat) : Exec Image := do
  let (sects, bitLen) ← formatSizes secCnt
  let sb := formatSuper startLba secCnt sects
  let disk ← ideWrite disk (startLba + 1) 1 (wordsImage sb.word)
  let bufSize := (if 608 ≤ sects then sects else 608) * 512
  defined (bitLen / 8 + (512 - bitLen / 8 % 512) ≤ bufSize)
  let disk ← ideWrite disk sb.blockBitmapLba sects (formatBlockBitmap bitLen)
  let disk ← ideWrite disk sb.inodeBitmapLba 1 (fun i => if i = 0 then 1#8 else 0#8)
  let disk ← ideWrite disk sb.inodeTableLba 608 (formatInodeTable sb.dataStartLba)
  ideWrite disk sb.dataStartLba 1 (dotsImage 0 0)

/-- `mount_partition` for the partition at `startLba`. -/
def mountPartition (disk : Image) (startLba secCnt : Nat) : Exec (Partition × Fs) := do
  let buf ← ideRead disk (startLba + 1) 1
  let sb := decodeSuper buf
  let blockBits ← ideRead disk sb.blockBitmapLba sb.blockBitmapSects
  let inodeBits ← ideRead disk sb.inodeBitmapLba sb.inodeBitmapSects
  return (⟨startLba, secCnt, sb⟩, {
    disk := disk
    blockBitmap := ⟨sb.blockBitmapSects * 512, blockBits⟩
    inodeBitmap := ⟨sb.inodeBitmapSects * 512, inodeBits⟩
    inodes := fun _ => inodeInit 0
    pool := fun _ => none
    nextAddr := 0
    openInodes := []
    rootDir := 0
    fileTable := fun _ => File.empty
    mallocs := [] })

/-- `open_root_dir`, run by the main thread. -/
def openRootDir (part : Partition) (s : Fs) : Exec Fs := do
  let (addr, s) ← inodeOpen part none s part.sb.rootInodeNo
  return { s with rootDir := addr }

/-- What `filesys_init` does with a partition that carries no file system and is mounted:
format it, mount it, open its root directory. -/
def formatAndMount (disk : Image) (startLba secCnt : Nat) : Exec (Partition × Fs) := do
  let disk ← partitionFormat disk startLba secCnt
  let (part, s) ← mountPartition disk startLba secCnt
  let s ← openRootDir part s
  return (part, s)

end Sparrow
