import Sparrow.Fs.Types

/-!
# Inodes on disk and in memory

`fs/inode.c` and the bitmap functions of `fs/file.c`.
-/

namespace Sparrow
set_option autoImplicit false

/-- `struct inode_position`. -/
structure InodePosition where
  twoSec : Bool
  secLba : Nat
  offSize : Nat
  deriving DecidableEq, Repr

/-- `inode_locate`. -/
def inodeLocate (sb : SuperBlock) (inodeNo : Nat) : Exec InodePosition := do
  assertThat (inodeNo < 4096)
  let offSize := inodeNo * inodeSize
  let offSec := offSize / 512
  let offSizeInSec := offSize % 512
  let leftInSec := 512 - offSizeInSec
  return ⟨decide (leftInSec < inodeSize), sb.inodeTableLba + offSec, offSizeInSec⟩

/-- The sectors an inode at this position takes part in. -/
def InodePosition.secs (pos : InodePosition) : Nat := if pos.twoSec then 2 else 1

/-- The copy of an inode that goes to disk. -/
def Inode.pure (ino : Inode) : Inode := { ino with iOpenCnts := 0, writeDeny := false }

/-- `inode_sync`. The number of the inode passes through a `uint8_t`. -/
def inodeSync (part : Partition) (disk : Image) (inode : Inode) : Exec Image := do
  let inodeNo := inode.iNo % 256
  let pos ← inodeLocate part.sb inodeNo
  assertThat (pos.secLba ≤ part.startLba + part.secCnt)
  let inodeBuf ← ideRead disk pos.secLba pos.secs
  ideWrite disk pos.secLba pos.secs (splice inodeBuf pos.offSize inodeSize inode.pure.image)

/-- The record of the inode lies in one sector of the inode table. -/
def OneSector (inodeNo : Nat) : Prop := inodeNo * inodeSize % 512 + inodeSize ≤ 512

instance (inodeNo : Nat) : Decidable (OneSector inodeNo) := inferInstanceAs (Decidable (_ ≤ _))

/-- `inode_sync` with an `io_buf` of `bufSize` bytes, through which go all the sectors it reads and writes.
Its callers other than `file_write` give it two sectors. -/
def inodeSyncThrough (bufSize : Nat) (part : Partition) (disk : Image) (inode : Inode) : Exec Image := do
  let pos ← inodeLocate part.sb (inode.iNo % 256)
  assertThat (pos.secLba ≤ part.startLba + part.secCnt)
  defined (512 * pos.secs ≤ bufSize)
  inodeSync part disk inode

/-- The walk along `open_inodes` at the start of `inode_open`. -/
def findOpen (me : Option Nat) (s : Fs) (inodeNo : Nat) : List Nat → Exec (Option Nat)
  | [] => return none
  | addr :: rest => do
    defined (Reachable me s addr)
    if (s.inodes addr).iNo = inodeNo then return some addr
    else findOpen me s inodeNo rest

/-- `inode_open`. The new `struct inode` comes from the kernel pool, `pgdir` being null
around its `sys_malloc`. -/
def inodeOpen (part : Partition) (me : Option Nat) (s : Fs) (inodeNo : Nat) : Exec (Nat × Fs) := do
  match ← findOpen me s inodeNo s.openInodes with
  | some addr =>
    return (addr, s.setInode addr { s.inodes addr with iOpenCnts := (s.inodes addr).iOpenCnts + 1 })
  | none =>
    let pos ← inodeLocate part.sb inodeNo
    let s ← mustMalloc s
    let s ← mustMalloc s
    let inodeBuf ← ideRead s.disk pos.secLba pos.secs
    let inodeFound := { decodeInode inodeBuf pos.offSize with iOpenCnts := 1 }
    return (s.nextAddr, { s.setInode s.nextAddr inodeFound with
      pool := fun a => if a = s.nextAddr then none else s.pool a
      nextAddr := s.nextAddr + 1
      openInodes := s.nextAddr :: s.openInodes })

/-- `inode_close`. The object is freed with `pgdir` null, so `sys_free` asserts that it
lies in the kernel heap. -/
def inodeClose (me : Option Nat) (s : Fs) (addr : Nat) : Exec Fs := do
  defined (Reachable me s addr)
  let cnt := subU32 (s.inodes addr).iOpenCnts 1
  let s := s.setInode addr { s.inodes addr with iOpenCnts := cnt }
  if cnt = 0 then
    assertThat (s.pool addr = none)
    return { s with openInodes := s.openInodes.erase addr }
  else return s

/-- `inode_init`. -/
def inodeInit (inodeNo : Nat) : Inode := ⟨inodeNo, 0, 0, false, fun _ => 0⟩

/-- `inode_delete`. -/
def inodeDelete (part : Partition) (disk : Image) (inodeNo : Nat) : Exec Image := do
  let pos ← inodeLocate part.sb inodeNo
  assertThat (pos.secLba ≤ part.startLba + part.secCnt)
  let inodeBuf ← ideRead disk pos.secLba pos.secs
  ideWrite disk pos.secLba pos.secs (fill inodeBuf pos.offSize inodeSize 0#8)

/-- `inode_bitmap_alloc`; `none` stands for -1. -/
def inodeBitmapAlloc (b : Bitmap) : Option Nat × Bitmap :=
  match bitmapScan b 1 with
  | none => (none, b)
  | some bitIdx => (some bitIdx, bitmapSet b bitIdx true)

/-- `block_bitmap_alloc`. The result is an `int32_t`: `none` is -1, any other value is
given as the `uint32_t` its callers store. -/
def blockBitmapAlloc (sb : SuperBlock) (b : Bitmap) : Option Nat × Bitmap :=
  match bitmapScan b 1 with
  | none => (none, b)
  | some bitIdx =>
    let lba := addU32 sb.dataStartLba bitIdx
    (if lba = 2 ^ 32 - 1 then none else some lba, bitmapSet b bitIdx true)

/-- `bitmap_sync` for a bitmap stored at `bitmapLba`. -/
def bitmapSync (disk : Image) (bitmapLba : Nat) (b : Bitmap) (bitIdx : Nat) : Exec Image :=
  let offSec := bitIdx / 4096
  ideWrite disk (bitmapLba + offSec) 1 (shifted b.bits (offSec * 512))

/-- `bitmap_set` through a pointer into the heap: an index past the bitmap is an access
out of bounds. -/
def bitmapClear (b : Bitmap) (bitIdx : Nat) : Exec Bitmap := do
  defined (bitIdx / 8 < b.btmpBytesLen)
  return bitmapSet b bitIdx false

/-- Clear the bit of a block in memory and write its sector of the bitmap. -/
def freeBlock (part : Partition) (s : Fs) (lba : Nat) : Exec Fs := do
  let blockBitmapIdx := subU32 lba part.sb.dataStartLba
  assertThat (0 < blockBitmapIdx)
  let b ← bitmapClear s.blockBitmap blockBitmapIdx
  let disk ← bitmapSync s.disk part.sb.blockBitmapLba b blockBitmapIdx
  return { s with blockBitmap := b, disk := disk }

/-- The loop of `inode_release` over the collected blocks. -/
def freeBlocks (part : Partition) : List Nat → Fs → Exec Fs
  | [], s => return s
  | lba :: rest, s => do
    let s ← if lba ≠ 0 then freeBlock part s lba else pure s
    freeBlocks part rest s

/-- `inode_release`. -/
def inodeRelease (part : Partition) (me : Option Nat) (s : Fs) (inodeNo : Nat) : Exec Fs := do
  let (addr, s) ← inodeOpen part me s inodeNo
  let inodeToDel := s.inodes addr
  assertThat (inodeToDel.iNo = inodeNo)
  let direct := (List.range 12).map inodeToDel.sec
  let (allBlocks, s) ←
    if inodeToDel.sec 12 ≠ 0 then do
      let table ← ideRead s.disk (inodeToDel.sec 12) 1
      let s ← freeBlock part s (inodeToDel.sec 12)
      pure (direct ++ (List.range 128).map (fun i => word32 table (4 * i)), s)
    else pure (direct, s)
  let s ← freeBlocks part allBlocks s
  let b ← bitmapClear s.inodeBitmap inodeNo
  let disk ← bitmapSync s.disk part.sb.inodeBitmapLba b inodeNo
  let s := { s with inodeBitmap := b, disk := disk }
  let s ← mustMalloc s
  let disk ← inodeDelete part s.disk inodeNo
  inodeClose me { s with disk := disk } addr

end Sparrow
