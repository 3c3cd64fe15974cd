import Sparrow.Device.Ide
import Sparrow.Kernel.Bitmap

/-!
# The data of the file system

The structures of `fs/inode.h`, `fs/dir.h`, `fs/file.h`, `fs/super_block.h` and
`device/ide.h`, with their layout in bytes where they are stored on disk. A `uint32_t`
field is a natural number; sums and differences that can leave the 32-bit range go
through `addU32` and `subU32`.

Pointers to `struct inode` are addresses of `Fs.inodes`. A heap object remembers the
pool it was allocated from, since `sys_malloc` and `sys_free` choose the pool by the
running task and a process cannot reach the user heap of another one.
-/

namespace Sparrow
set_option autoImplicit false

def addU32 (a b : Nat) : Nat := (a + b) % 2 ^ 32

def subU32 (a b : Nat) : Nat := (a + 2 ^ 32 - b) % 2 ^ 32

theorem addU32_of_lt {a b : Nat} (h : a + b < 2 ^ 32) : addU32 a b = a + b := Nat.mod_eq_of_lt h

theorem subU32_of_le {a b : Nat} (le : b ≤ a) (h : a < 2 ^ 32) : subU32 a b = a - b := by
  simp only [subU32]
  omega

/-- `sizeof(struct inode)`: three words, a `bool` (an `int` here), 13 block addresses
and the two pointers of `inode_tag`. -/
def inodeSize : Nat := 76

/-- `sizeof(struct dir_entry)`. -/
def direntSize : Nat := 24

def maxFilesPerPart : Nat := 4096

def maxFileNameLen : Nat := 16

def maxPathLen : Nat := 512

def maxFileOpen : Nat := 32

def maxFilesOpenPerProc : Nat := 8

/-- `enum file_types`. -/
inductive FileTypes where
  | unknown
  | regular
  | directory
  deriving DecidableEq, Repr

def FileTypes.code : FileTypes → Nat
  | .unknown => 0
  | .regular => 1
  | .directory => 2

/-! `enum oflags` and the flag `sys_pipe` stores in `fd_flag`. -/

def oWronly : Nat := 1

def oRdwr : Nat := 2

def oCreat : Nat := 4

def pipeFlag : Nat := 0xFFFF

/-- `struct super_block` without its padding. -/
structure SuperBlock where
  magic : Nat
  secCnt : Nat
  inodeCnt : Nat
  partLbaBase : Nat
  blockBitmapLba : Nat
  blockBitmapSects : Nat
  inodeBitmapLba : Nat
  inodeBitmapSects : Nat
  inodeTableLba : Nat
  inodeTableSects : Nat
  dataStartLba : Nat
  rootInodeNo : Nat
  dirEntrySize : Nat
  deriving DecidableEq, Repr

/-- The part of `struct partition` that never changes after mounting. -/
structure Partition where
  startLba : Nat
  secCnt : Nat
  sb : SuperBlock
  deriving DecidableEq, Repr

/-- `struct inode`; `inode_tag` is represented by membership in `Fs.openInodes`. -/
structure Inode where
  iNo : Nat
  iSize : Nat
  iOpenCnts : Nat
  writeDeny : Bool
  iSectors : Fin 13 → Nat

/-- `i_sectors[k]`. -/
def Inode.sec (ino : Inode) (k : Nat) : Nat := if h : k < 13 then ino.iSectors ⟨k, h⟩ else 0

/-- `i_sectors[k] = v`. -/
def Inode.setSec (ino : Inode) (k v : Nat) : Inode :=
  { ino with iSectors := fun i => if i.val = k then v else ino.iSectors i }

/-- The words of a `struct inode` in memory, the list pointers being null. -/
def Inode.word (ino : Inode) : Nat → Nat
  | 0 => ino.iNo
  | 1 => ino.iSize
  | 2 => ino.iOpenCnts
  | 3 => if ino.writeDeny then 1 else 0
  | w + 4 => ino.sec w

def Inode.image (ino : Inode) : Image := wordsImage ino.word

/-- The `struct inode` at address `a` of a buffer. -/
def decodeInode (m : Image) (a : Nat) : Inode where
  iNo := word32 m a
  iSize := word32 m (a + 4)
  iOpenCnts := word32 m (a + 8)
  writeDeny := word32 m (a + 12) != 0
  iSectors := fun i => word32 m (a + 16 + 4 * i.val)

/-- `struct dir_entry`. -/
structure DirEntry where
  filename : Fin 16 → Byte
  iNo : Nat
  fType : Nat

def DirEntry.image (e : DirEntry) : Image := fun x =>
  if h : x < 16 then e.filename ⟨x, h⟩
  else if x < 20 then leByte e.iNo (x - 16)
  else leByte e.fType (x - 20)

/-- The directory entry in slot `j` of a sector that starts at address `a`. -/
def decodeDirent (m : Image) (a j : Nat) : DirEntry where
  filename := fun i => m (a + direntSize * j + i.val)
  iNo := word32 m (a + direntSize * j + 16)
  fType := word32 m (a + direntSize * j + 20)

/-- What `fd_inode` points to: nothing, a `struct inode`, or the page of a pipe. -/
inductive FdInode where
  | null
  | inode (addr : Nat)
  | pipe
  deriving DecidableEq, Repr

/-- `struct file`. -/
structure File where
  fdPos : Nat
  fdFlag : Nat
  fdInode : FdInode
  deriving DecidableEq, Repr

/-- A zeroed `struct file`. -/
def File.empty : File := ⟨0, 0, .null⟩

/-- `struct dir`; `isRoot` tells the static `root_dir` from a directory on the heap. -/
structure Dir where
  isRoot : Bool
  inode : Nat
  dirPos : Nat
  deriving DecidableEq, Repr

/-- What an operation on one file or directory reads and writes besides its
arguments. -/
structure Vnode where
  disk : Image
  blockBitmap : Bitmap
  inode : Inode

/-- The mounted partition: the disk, the two bitmaps in memory, the cached inodes with
their list `open_inodes`, the global file table and the heap. `mallocs` foretells the
results of the next allocations; when it is empty they succeed. `pool` is `none` for an
object of the kernel pool and `some pid` for one in the heap of process `pid`. -/
structure Fs where
  disk : Image
  blockBitmap : Bitmap
  inodeBitmap : Bitmap
  inodes : Nat → Inode
  pool : Nat → Option Nat
  nextAddr : Nat
  openInodes : List Nat
  rootDir : Nat
  fileTable : Nat → File
  mallocs : List Bool

/-- The inode of a cached `struct inode` together with the storage it describes. -/
def Fs.vnode (s : Fs) (addr : Nat) : Vnode := ⟨s.disk, s.blockBitmap, s.inodes addr⟩

def Fs.setInode (s : Fs) (addr : Nat) (ino : Inode) : Fs :=
  { s with inodes := fun a => if a = addr then ino else s.inodes a }

def Fs.setVnode (s : Fs) (addr : Nat) (v : Vnode) : Fs :=
  { s.setInode addr v.inode with disk := v.disk, blockBitmap := v.blockBitmap }

def Fs.setFile (s : Fs) (idx : Nat) (f : File) : Fs :=
  { s with fileTable := fun i => if i = idx then f else s.fileTable i }

/-- The result of the next `sys_malloc`. -/
def Fs.mallocOk (s : Fs) : Bool := s.mallocs.headD true

/-- The state after one `sys_malloc`. -/
def Fs.malloc (s : Fs) : Fs := { s with mallocs := s.mallocs.tail }

/-- An allocation whose result is used without a null check. -/
def mustMalloc (s : Fs) : Exec Fs := do
  defined (s.mallocOk = true)
  return s.malloc

/-- `root_dir`. -/
def Fs.root (s : Fs) : Dir := ⟨true, s.rootDir, 0⟩

/-- The running task may dereference a pointer into the kernel pool or its own heap. -/
abbrev Reachable (me : Option Nat) (s : Fs) (addr : Nat) : Prop :=
  s.pool addr = none ∨ s.pool addr = me

/-! Storing into a table. -/

theorem Fs.setFile_setFile (s : Fs) (g : Nat) (file file' : File) : (s.setFile g file).setFile g file' = s.setFile g file' := by
  simp only [Fs.setFile]
  congr 1
  funext i
  by_cases e : i = g
  · rw [if_pos e, if_pos e]
  · rw [if_neg e, if_neg e, if_neg e]

theorem Fs.setFile_self (s : Fs) (g : Nat) (file : File) : (s.setFile g file).fileTable g = file := if_pos rfl

theorem Fs.setFile_of_ne (s : Fs) (file : File) {g i : Nat} (ne : i ≠ g) : (s.setFile g file).fileTable i = s.fileTable i :=
  if_neg ne

theorem Fs.setInode_self (s : Fs) (a : Nat) (ino : Inode) : (s.setInode a ino).inodes a = ino := if_pos rfl

theorem Fs.setInode_of_ne (s : Fs) (ino : Inode) {a a' : Nat} (ne : a' ≠ a) : (s.setInode a ino).inodes a' = s.inodes a' :=
  if_neg ne

/-! Block addresses of an inode. -/

theorem Inode.sec_setSec (ino : Inode) {k j v : Nat} (hk : k < 13) :
    (ino.setSec k v).sec j = if j = k then v else ino.sec j := by
  simp only [Inode.sec, Inode.setSec]
  by_cases hj : j < 13
  · simp [hj]
  · rw [dif_neg hj, dif_neg hj, if_neg (by omega)]

@[simp] theorem Inode.setSec_iNo (ino : Inode) (k v : Nat) : (ino.setSec k v).iNo = ino.iNo := rfl

@[simp] theorem Inode.setSec_iSize (ino : Inode) (k v : Nat) : (ino.setSec k v).iSize = ino.iSize := rfl

theorem Inode.sec_ge (ino : Inode) {k : Nat} (hk : 13 ≤ k) : ino.sec k = 0 := by
  simp only [Inode.sec]
  rw [dif_neg (by omega)]

/-- Two inodes with the same `i_sectors` entries have the same array. -/
theorem iSectors_ext {a b : Inode} (h : ∀ k, k < 13 → a.sec k = b.sec k) : a.iSectors = b.iSectors := by
  funext i
  simpa [Inode.sec, i.isLt] using h i.val i.isLt

/-! The bytes of an entry read back. -/

theorem DirEntry.image_name (e : DirEntry) {x : Nat} (hx : x < 16) : e.image x = e.filename ⟨x, hx⟩ := by
  simp [DirEntry.image, hx]

theorem DirEntry.image_word (e : DirEntry) {x : Nat} (lo : 16 ≤ x) :
    e.image x = wordsImage (fun w => if w = 0 then e.iNo else e.fType) (x - 16) ∨ 24 ≤ x := by
  by_cases hi : 24 ≤ x
  · exact .inr hi
  · left
    simp only [DirEntry.image, wordsImage]
    rw [dif_neg (by omega)]
    by_cases h : x < 20
    · rw [if_pos h, if_pos (by omega), show (x - 16) % 4 = x - 16 by omega]
    · rw [if_neg h, if_neg (by omega), show (x - 16) % 4 = x - 20 by omega]

end Sparrow
