import Sparrow.Fs.Inode

/-!
# Directories

`fs/dir.c`. A directory has up to 140 blocks: 12 addressed by `i_sectors` and 128
through the table in block `i_sectors[12]`. A block holds 21 entries.
-/

namespace Sparrow
set_option autoImplicit false

/-- The loops that collect the block addresses of an inode in `all_blocks`. -/
def allBlocks (disk : Image) (inode : Inode) : Exec (Nat → Nat) :=
  if inode.sec 12 ≠ 0 then do
    let table ← ideRead disk (inode.sec 12) 1
    return fun k => if k < 12 then inode.sec k else word32 table (4 * (k - 12))
  else return fun k => if k < 12 then inode.sec k else 0

/-- `!strcmp(m + a, str)` for a string `str` without a zero byte. -/
def strEq (m : Image) (a : Nat) (str : List Byte) : Bool :=
  (List.range (str.length + 1)).all fun i => m (a + i) == str.getD i 0#8

/-- `.` and `..` as strings. -/
def dot : List Byte := [0x2e#8]

def dotDot : List Byte := [0x2e#8, 0x2e#8]

/-- The loop of `search_dir_entry` over the blocks of the directory. -/
def searchBlocks (part : Partition) (disk : Image) (name : List Byte) : List Nat → Exec (Option DirEntry)
  | [] => return none
  | lba :: rest =>
    if lba = 0 then searchBlocks part disk name rest
    else do
      let buf ← ideRead disk lba 1
      match (List.range (512 / part.sb.dirEntrySize)).find? fun j => strEq buf (direntSize * j) name with
      | some j => return some (decodeDirent buf 0 j)
      | none => searchBlocks part disk name rest

/-- `search_dir_entry` once its buffers are allocated. -/
def searchEntry (part : Partition) (disk : Image) (inode : Inode) (name : List Byte) :
    Exec (Option DirEntry) := do
  let all ← allBlocks disk inode
  searchBlocks part disk name ((List.range 140).map all)

/-- `search_dir_entry`. When the first allocation fails the entry counts as absent. -/
def searchDirEntry (part : Partition) (me : Option Nat) (s : Fs) (pdir : Dir) (name : List Byte) :
    Exec (Option DirEntry × Fs) := do
  if s.mallocOk then
    let s := s.malloc
    defined (Reachable me s pdir.inode)
    let s ← mustMalloc s
    let found ← searchEntry part s.disk (s.inodes pdir.inode) name
    return (found, s)
  else return (none, s.malloc)

/-- `dir_open`. -/
def dirOpen (part : Partition) (me : Option Nat) (s : Fs) (inodeNo : Nat) : Exec (Dir × Fs) := do
  let s ← mustMalloc s
  let (addr, s) ← inodeOpen part me s inodeNo
  return (⟨false, addr, 0⟩, s)

/-- `dir_close`: the root directory is never closed. -/
def dirClose (me : Option Nat) (s : Fs) (dir : Dir) : Exec Fs :=
  if dir.isRoot then return s else inodeClose me s dir.inode

/-- `create_dir_entry` into a zeroed entry. -/
def createDirEntry (filename : List Byte) (inodeNo : Nat) (fileType : FileTypes) : Exec DirEntry := do
  assertThat (filename.length ≤ maxFileNameLen)
  return ⟨fun i => filename.getD i.val 0#8, inodeNo, fileType.code⟩

/-- A zeroed buffer. -/
def zeros : Image := fun _ => 0#8

/-- A block of the block bitmap changed in memory is written to disk at once. -/
def syncBlock (part : Partition) (disk : Image) (b : Bitmap) (lba : Nat) : Exec Image :=
  bitmapSync disk part.sb.blockBitmapLba b (subU32 lba part.sb.dataStartLba)

/-- The indirect table `all_blocks + 12` as it lies in memory. -/
def tableImage (all : Nat → Nat) : Image := wordsImage fun i => all (12 + i)

/-- Write the entry as the first one of the new block `all_blocks[blockIdx]`. -/
def writeFirstEntry (part : Partition) (v : Vnode) (e : DirEntry) (lba : Nat) : Exec (Bool × Vnode) := do
  let disk ← ideWrite v.disk lba 1 (splice zeros 0 part.sb.dirEntrySize e.image)
  return (true, { v with
    disk := disk
    inode := { v.inode with iSize := addU32 v.inode.iSize part.sb.dirEntrySize } })

/-- The branch of `sync_dir_entry` for a block that does not exist yet. -/
def syncNewBlock (part : Partition) (v : Vnode) (all : Nat → Nat) (e : DirEntry) (blockIdx : Nat) :
    Exec (Bool × Vnode) :=
  match blockBitmapAlloc part.sb v.blockBitmap with
  | (none, b) => return (false, { v with blockBitmap := b })
  | (some lba, b) => do
    assertThat (subU32 lba part.sb.dataStartLba ≠ 2 ^ 32 - 1)
    let disk ← syncBlock part v.disk b lba
    if blockIdx < 12 then
      writeFirstEntry part ⟨disk, b, v.inode.setSec blockIdx lba⟩ e lba
    else if blockIdx = 12 then
      -- the block just allocated becomes the indirect table, a second one its block 0
      match blockBitmapAlloc part.sb b with
      | (none, b') => do
        let b'' ← bitmapClear b' (subU32 lba part.sb.dataStartLba)
        return (false, ⟨disk, b'', v.inode.setSec 12 0⟩)
      | (some lba', b') => do
        assertThat (subU32 lba' part.sb.dataStartLba ≠ 2 ^ 32 - 1)
        let disk ← syncBlock part disk b' lba'
        let all := fun k => if k = 12 then lba' else all k
        let disk ← ideWrite disk lba 1 (tableImage all)
        writeFirstEntry part ⟨disk, b', v.inode.setSec 12 lba⟩ e lba'
    else do
      let all := fun k => if k = blockIdx then lba else all k
      let disk ← ideWrite disk (v.inode.sec 12) 1 (tableImage all)
      writeFirstEntry part ⟨disk, b, v.inode⟩ e lba

/-- The loop of `sync_dir_entry` over the block indices. -/
def syncBlocks (part : Partition) (v : Vnode) (all : Nat → Nat) (e : DirEntry) :
    List Nat → Exec (Bool × Vnode)
  | [] => return (false, v)
  | blockIdx :: rest =>
    if all blockIdx = 0 then syncNewBlock part v all e blockIdx
    else do
      let ioBuf ← ideRead v.disk (all blockIdx) 1
      match (List.range (512 / part.sb.dirEntrySize)).find? fun j =>
          (decodeDirent ioBuf 0 j).fType = FileTypes.unknown.code with
      | some j =>
        let disk ← ideWrite v.disk (all blockIdx) 1
          (splice ioBuf (direntSize * j) part.sb.dirEntrySize e.image)
        return (true, { v with
          disk := disk
          inode := { v.inode with iSize := addU32 v.inode.iSize part.sb.dirEntrySize } })
      | none => syncBlocks part v all e rest

/-- `sync_dir_entry`. -/
def syncDirEntry (part : Partition) (v : Vnode) (e : DirEntry) : Exec (Bool × Vnode) := do
  assertThat (v.inode.iSize % part.sb.dirEntrySize = 0)
  let all ← allBlocks v.disk v.inode
  syncBlocks part v all e (List.range 140)

/-- What the inner loop of `delete_dir_entry` learns about a block. -/
structure BlockScan where
  entryFound : Option Nat
  entryCnt : Nat
  isDirFirstBlock : Bool
  deriving DecidableEq, Repr

/-- One turn of the inner loop, at entry `j`. -/
def scanEntry (ioBuf : Image) (inodeNo : Nat) (sc : BlockScan) (j : Nat) : Exec BlockScan :=
  if (decodeDirent ioBuf 0 j).fType ≠ FileTypes.unknown.code then
    if strEq ioBuf (direntSize * j) dot then return { sc with isDirFirstBlock := true }
    else if !strEq ioBuf (direntSize * j) dotDot then
      if (decodeDirent ioBuf 0 j).iNo = inodeNo then do
        assertThat (sc.entryFound = none)
        return { sc with entryCnt := sc.entryCnt + 1, entryFound := some j }
      else return { sc with entryCnt := sc.entryCnt + 1 }
    else return sc
  else return sc

/-- Clear the bit of a directory block and write its sector of the bitmap. -/
def reclaimBlock (part : Partition) (v : Vnode) (lba : Nat) : Exec Vnode := do
  let blockBitmapIdx := subU32 lba part.sb.dataStartLba
  let b ← bitmapClear v.blockBitmap blockBitmapIdx
  let disk ← bitmapSync v.disk part.sb.blockBitmapLba b blockBitmapIdx
  return { v with blockBitmap := b, disk := disk }

/-- The entry found in slot `j` of block `blockIdx` goes: with its block, when it is the
last one there and the block is not the first of the directory, else alone. Counting
the indirect blocks never ends, since that loop does not advance its index. -/
def eraseEntry (part : Partition) (v : Vnode) (all : Nat → Nat) (ioBuf : Image) (blockIdx j : Nat)
    (sc : BlockScan) : Exec Vnode :=
  if sc.entryCnt = 1 ∧ sc.isDirFirstBlock = false then do
    let v ← reclaimBlock part v (all blockIdx)
    if blockIdx < 12 then return { v with inode := v.inode.setSec blockIdx 0 }
    else throw .diverge
  else do
    let disk ← ideWrite v.disk (all blockIdx) 1 (fill ioBuf (direntSize * j) part.sb.dirEntrySize 0#8)
    return { v with disk := disk }

/-- `delete_dir_entry` once the entry is found. -/
def deleteFound (part : Partition) (v : Vnode) (all : Nat → Nat) (ioBuf : Image) (blockIdx j : Nat)
    (sc : BlockScan) : Exec Vnode := do
  assertThat (1 ≤ sc.entryCnt)
  let v ← eraseEntry part v all ioBuf blockIdx j sc
  assertThat (part.sb.dirEntrySize ≤ v.inode.iSize)
  let inode := { v.inode with iSize := v.inode.iSize - part.sb.dirEntrySize }
  let disk ← inodeSync part v.disk inode
  return { v with disk := disk, inode := inode }

/-- The loop of `delete_dir_entry` over the block indices. -/
def deleteBlocks (part : Partition) (v : Vnode) (all : Nat → Nat) (inodeNo : Nat) :
    List Nat → Exec (Bool × Vnode)
  | [] => return (false, v)
  | blockIdx :: rest =>
    if all blockIdx = 0 then deleteBlocks part v all inodeNo rest
    else do
      let ioBuf ← ideRead v.disk (all blockIdx) 1
      let sc ← (List.range (512 / part.sb.dirEntrySize)).foldlM (scanEntry ioBuf inodeNo) ⟨none, 0, false⟩
      match sc.entryFound with
      | none => deleteBlocks part v all inodeNo rest
      | some j => do
        let v ← deleteFound part v all ioBuf blockIdx j sc
        return (true, v)

/-- `delete_dir_entry`. -/
def deleteDirEntry (part : Partition) (v : Vnode) (inodeNo : Nat) : Exec (Bool × Vnode) := do
  let all ← allBlocks v.disk v.inode
  deleteBlocks part v all inodeNo (List.range 140)

/-- What `dir_read` changes in a `struct dir`: `dir_pos` and `dir_buf`. -/
structure Cursor where
  dirPos : Nat
  dirBuf : Image

/-- The inner loop of `dir_read`, over the slots of the sector in `buf`. The first number
returned is `cur_dir_entry_pos`. -/
def readSlots (dirEntrySize : Nat) (buf : Image) (dirPos : Nat) : List Nat → Nat → Exec (Nat × Option Nat)
  | [], pos => return (pos, none)
  | j :: rest, pos =>
    if (decodeDirent buf 0 j).fType ≠ FileTypes.unknown.code then
      if pos < dirPos then readSlots dirEntrySize buf dirPos rest (addU32 pos dirEntrySize)
      else do
        assertThat (pos = dirPos)
        return (pos, some j)
    else readSlots dirEntrySize buf dirPos rest pos

/-- The loop of `dir_read` over the blocks: the slot found, and the buffer. -/
def readBlocksFrom (part : Partition) (disk : Image) (iSize dirPos : Nat) :
    List Nat → Nat → Image → Exec (Option Nat × Image)
  | [], _, buf => return (none, buf)
  | lba :: rest, pos, buf =>
    if iSize ≤ dirPos then return (none, buf)
    else if lba = 0 then readBlocksFrom part disk iSize dirPos rest pos buf
    else do
      let buf ← ideRead disk lba 1
      let (pos, found) ← readSlots part.sb.dirEntrySize buf dirPos (List.range (512 / part.sb.dirEntrySize)) pos
      match found with
      | some j => return (some j, buf)
      | none => readBlocksFrom part disk iSize dirPos rest pos buf

/-- `dir_read`: the entry it returns a pointer to, or nothing. -/
def dirRead (part : Partition) (disk : Image) (dirInode : Inode) (c : Cursor) : Exec (Option DirEntry × Cursor) := do
  let all ← allBlocks disk dirInode
  let blockCnt := if dirInode.sec 12 ≠ 0 then 140 else 12
  let (found, buf) ← readBlocksFrom part disk dirInode.iSize c.dirPos ((List.range blockCnt).map all) 0 c.dirBuf
  match found with
  | none => return (none, { c with dirBuf := buf })
  | some j => return (some (decodeDirent buf 0 j), ⟨addU32 c.dirPos part.sb.dirEntrySize, buf⟩)

/-- `dir_is_empty`. -/
def dirIsEmpty (part : Partition) (inode : Inode) : Bool :=
  decide (inode.iSize = part.sb.dirEntrySize * 2)

/-- `dir_remove`; `none` stands for -1. -/
def dirRemove (part : Partition) (me : Option Nat) (s : Fs) (parentDir childDir : Dir) :
    Exec (Option Unit × Fs) := do
  defined (Reachable me s childDir.inode)
  let child := s.inodes childDir.inode
  assertThat (∀ k ∈ List.range 12, child.sec (k + 1) = 0)
  if s.mallocOk then
    let s := s.malloc
    defined (Reachable me s parentDir.inode)
    let (_, v) ← deleteDirEntry part (s.vnode parentDir.inode) child.iNo
    let s := s.setVnode parentDir.inode v
    let s ← inodeRelease part me s (s.inodes childDir.inode).iNo
    return (some (), s)
  else return (none, s.malloc)

end Sparrow
