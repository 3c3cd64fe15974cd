import Sparrow.Fs.Dir

/-!
# Files

`fs/file.c`. Buffers of the caller are images; a count is the number of bytes meant.
-/

namespace Sparrow
set_option autoImplicit false

/-- `get_free_slot_in_global`: the slots 0, 1 and 2 are never handed out. -/
def getFreeSlotInGlobal (fileTable : Nat → File) : Option Nat :=
  (List.range' 3 (maxFileOpen - 3)).find? fun i => (fileTable i).fdInode = .null

/-- `pcb_fd_install`; `none` stands for -1. -/
def pcbFdInstall (fdTable : Nat → Int) (globalFdIdx : Nat) : Option Nat × (Nat → Int) :=
  match (List.range' 3 (maxFilesOpenPerProc - 3)).find? fun i => fdTable i = -1 with
  | none => (none, fdTable)
  | some localFdIdx => (some localFdIdx, fun i => if i = localFdIdx then globalFdIdx else fdTable i)

/-- The end of `file_create`: the entry is in the directory; the two inodes and the
inode bitmap follow, then the new inode joins `open_inodes`. -/
def fileCreated (part : Partition) (s : Fs) (parentInode newInode inodeNo : Nat) : Exec Fs := do
  let disk ← inodeSync part s.disk (s.inodes parentInode)
  let disk ← inodeSync part disk (s.inodes newInode)
  let disk ← bitmapSync disk part.sb.inodeBitmapLba s.inodeBitmap inodeNo
  let s := { s with disk := disk, openInodes := newInode :: s.openInodes }
  return s.setInode newInode { s.inodes newInode with iOpenCnts := 1 }

/-- `file_create` with its four rollback steps. The new inode is allocated in the heap
of the running task, whichever that is. -/
def fileCreate (part : Partition) (me : Option Nat) (s : Fs) (fdTable : Nat → Int)
    (parentDir : Dir) (filename : List Byte) (flag : Nat) : Exec (Option Nat × Fs × (Nat → Int)) := do
  if s.mallocOk = false then return (none, s.malloc, fdTable)
  else
    let s := s.malloc
    match inodeBitmapAlloc s.inodeBitmap with
    | (none, _) => return (none, s, fdTable)
    | (some inodeNo, b) =>
      let s := { s with inodeBitmap := b }
      let undo := fun s : Fs => { s with inodeBitmap := bitmapSet s.inodeBitmap inodeNo false }
      if s.mallocOk = false then return (none, undo s.malloc, fdTable)
      else
        let addr := s.nextAddr
        let s := { s.malloc.setInode addr (inodeInit inodeNo) with
          pool := fun a => if a = addr then me else s.pool a
          nextAddr := addr + 1 }
        match getFreeSlotInGlobal s.fileTable with
        | none => return (none, undo s, fdTable)
        | some fdIdx =>
          let s := s.setFile fdIdx ⟨0, flag, .inode addr⟩
          let newDirEntry ← createDirEntry filename inodeNo .regular
          defined (Reachable me s parentDir.inode)
          let (ok, v) ← syncDirEntry part (s.vnode parentDir.inode) newDirEntry
          let s := s.setVnode parentDir.inode v
          if ok = false then return (none, undo (s.setFile fdIdx File.empty), fdTable)
          else
            let s ← fileCreated part s parentDir.inode addr inodeNo
            let (fd, fdTable) := pcbFdInstall fdTable fdIdx
            return (fd, s, fdTable)

/-- The open mode asks for writing. -/
abbrev ForWrite (flag : Nat) : Prop := flag &&& oWronly ≠ 0 ∨ flag &&& oRdwr ≠ 0

/-- `file_open`. -/
def fileOpen (part : Partition) (me : Option Nat) (s : Fs) (fdTable : Nat → Int) (inodeNo flag : Nat) :
    Exec (Option Nat × Fs × (Nat → Int)) := do
  match getFreeSlotInGlobal s.fileTable with
  | none => return (none, s, fdTable)
  | some fdIdx =>
    let (addr, s) ← inodeOpen part me s inodeNo
    let s := s.setFile fdIdx ⟨0, flag, .inode addr⟩
    if ForWrite flag ∧ (s.inodes addr).writeDeny = true then
      -- another task writes the file; the inode just opened stays open
      return (none, s.setFile fdIdx { s.fileTable fdIdx with fdInode := .null }, fdTable)
    else
      let s := if ForWrite flag then s.setInode addr { s.inodes addr with writeDeny := true } else s
      let (fd, fdTable) := pcbFdInstall fdTable fdIdx
      return (fd, s, fdTable)

/-- `file_close` of a slot that holds an inode. -/
def fileClose (me : Option Nat) (s : Fs) (fdIdx : Nat) : Exec Fs :=
  match (s.fileTable fdIdx).fdInode with
  | .inode addr => do
    defined (Reachable me s addr)
    let s ← inodeClose me (s.setInode addr { s.inodes addr with writeDeny := false }) addr
    return s.setFile fdIdx { s.fileTable fdIdx with fdInode := .null }
  | _ => throw .undefined

/-- The block addresses of a file being written and the inode they go to. -/
structure Growth where
  ok : Bool
  v : Vnode
  all : Nat → Nat

/-- The loops that allocate the blocks from `file_has_used_blocks` up to
`file_will_use_blocks`. The body is the one of the second situation; the first situation
takes only its direct branch, the third only its indirect one. -/
def growBlocks (part : Partition) : List Nat → Vnode → (Nat → Nat) → Exec Growth
  | [], v, all => return ⟨true, v, all⟩
  | blockIdx :: rest, v, all =>
    match blockBitmapAlloc part.sb v.blockBitmap with
    | (none, b) => return ⟨false, { v with blockBitmap := b }, all⟩
    | (some lba, b) => do
      let inode ←
        if blockIdx < 12 then do
          assertThat (v.inode.sec blockIdx = 0)
          pure (v.inode.setSec blockIdx lba)
        else pure v.inode
      let disk ← syncBlock part v.disk b lba
      growBlocks part rest ⟨disk, b, inode⟩ (fun k => if k = blockIdx then lba else all k)

/-- The allocation of the first block of a file; `false` when there is none. -/
def firstBlock (part : Partition) (v : Vnode) : Exec (Bool × Vnode) :=
  if v.inode.sec 0 = 0 then
    match blockBitmapAlloc part.sb v.blockBitmap with
    | (none, b) => return (false, { v with blockBitmap := b })
    | (some lba, b) => do
      assertThat (subU32 lba part.sb.dataStartLba ≠ 0)
      let disk ← syncBlock part v.disk b lba
      return (true, ⟨disk, b, v.inode.setSec 0 lba⟩)
  else return (true, v)

/-- The blocks `[has, will)` of a growing file, the addresses of `all_blocks + 12` being
read from or written to the indirect table. -/
def growFile (part : Partition) (v : Vnode) (has will : Nat) : Exec Growth :=
  let last := fun k => if k = has - 1 then v.inode.sec (has - 1) else 0
  let new := List.range' has (will - has)
  if will ≤ 12 then do
    -- 12 direct blocks are enough
    defined (has - 1 < 13)
    assertThat (v.inode.sec (has - 1) ≠ 0)
    growBlocks part new v last
  else if has ≤ 12 then
    -- the new data needs the indirect table; its own bit is not written to disk here
    match blockBitmapAlloc part.sb v.blockBitmap with
    | (none, b) => return ⟨false, { v with blockBitmap := b }, last⟩
    | (some lba, b) => do
      assertThat (v.inode.sec 12 = 0)
      let g ← growBlocks part new { v with blockBitmap := b, inode := v.inode.setSec 12 lba } last
      if g.ok = false then return g
      else
        let disk ← ideWrite g.v.disk lba 1 (tableImage g.all)
        return { g with v := { g.v with disk := disk } }
  else do
    assertThat (v.inode.sec 12 ≠ 0)
    let table ← ideRead v.disk (v.inode.sec 12) 1
    let g ← growBlocks part new v (fun k => if k < 12 then 0 else word32 table (4 * (k - 12)))
    if g.ok = false then return g
    else
      let disk ← ideWrite g.v.disk (v.inode.sec 12) 1 (tableImage g.all)
      return { g with v := { g.v with disk := disk } }

/-- The addresses collected when no block is added. -/
def sameBlocks (v : Vnode) (has : Nat) : Exec Growth :=
  if has ≤ 12 then
    return ⟨true, v, fun k => if k = has - 1 then v.inode.sec (has - 1) else 0⟩
  else do
    assertThat (v.inode.sec 12 ≠ 0)
    let table ← ideRead v.disk (v.inode.sec 12) 1
    return ⟨true, v, fun k => if k < 12 then 0 else word32 table (4 * (k - 12))⟩

/-- The loop of `file_write` that stores the data: `written` bytes of `count` are done.
Each turn stores at least one byte, so `count` turns are enough. The first sector is read
before it is written, the others start out zeroed. -/
def writeLoop (all : Nat → Nat) (buf : Image) (count : Nat) :
    Nat → Bool → Nat → Vnode → Nat → Exec (Vnode × Nat)
  | 0, _, _, v, fdPos => return (v, fdPos)
  | fuel + 1, first, written, v, fdPos =>
    if written < count then do
      let secIdx := v.inode.iSize / 512
      defined (secIdx < 140)
      let secLba := all secIdx
      let secOffBytes := v.inode.iSize % 512
      let secLeftBytes := 512 - secOffBytes
      let chunkSize := if count - written < secLeftBytes then count - written else secLeftBytes
      let ioBuf ← if first then ideRead v.disk secLba 1 else pure zeros
      let disk ← ideWrite v.disk secLba 1 (splice ioBuf secOffBytes chunkSize (shifted buf written))
      writeLoop all buf count fuel false (written + chunkSize)
        { v with disk := disk, inode := { v.inode with iSize := addU32 v.inode.iSize chunkSize } }
        (addU32 fdPos chunkSize)
    else return (v, fdPos)

/-- `file_write` after its allocations: the result, `none` for -1, the new storage and
`fd_pos`. The inode is written through `io_buf`, which has one sector only. -/
def writeFile (part : Partition) (v : Vnode) (fdPos : Nat) (buf : Image) (count : Nat) :
    Exec (Option Nat × Vnode × Nat) := do
  let (ok, v) ← firstBlock part v
  if ok = false then return (none, v, fdPos)
  else
    let has := v.inode.iSize / 512 + 1
    let will := addU32 v.inode.iSize count / 512 + 1
    assertThat (will ≤ 140)
    let g ← if will = has then sameBlocks v has else growFile part v has will
    if g.ok = false then return (none, g.v, fdPos)
    else
      let (v, fdPos) ← writeLoop g.all buf count count true 0 g.v (subU32 g.v.inode.iSize 1)
      let disk ← inodeSyncThrough 512 part v.disk v.inode
      return (some count, { v with disk := disk }, fdPos)

/-- `file_write` on slot `fdIdx` of the file table; `none` stands for -1. -/
def fileWrite (part : Partition) (me : Option Nat) (s : Fs) (fdIdx : Nat) (buf : Image) (count : Nat) :
    Exec (Option Nat × Fs) :=
  let file := s.fileTable fdIdx
  match file.fdInode with
  | .inode addr => do
    defined (Reachable me s addr)
    if 512 * 140 < addU32 (s.inodes addr).iSize count then return (none, s)
    else if s.mallocOk = false then return (none, s.malloc)
    else if s.malloc.mallocOk = false then return (none, s.malloc.malloc)
    else
      let s := s.malloc.malloc
      let (r, v, fdPos) ← writeFile part (s.vnode addr) file.fdPos buf count
      return (r, (s.setVnode addr v).setFile fdIdx { file with fdPos := fdPos })
  | _ => throw .undefined

/-- The collection of block addresses in `file_read`, for the blocks `first .. last`. -/
def readBlocks (disk : Image) (inode : Inode) (first last : Nat) : Exec (Nat → Nat) := do
  let indirect : Exec (Nat → Nat) := do
    let table ← ideRead disk (inode.sec 12) 1
    return fun k => if k < 12 then 0 else word32 table (4 * (k - 12))
  if first = last then
    if last < 12 then return fun k => if k = last then inode.sec k else 0
    else indirect
  else if last < 12 then
    return fun k => if first ≤ k ∧ k ≤ last then inode.sec k else 0
  else if first < 12 then
    assertThat (inode.sec 12 ≠ 0)
    let tail ← indirect
    return fun k => if first ≤ k ∧ k < 12 then inode.sec k else tail k
  else
    assertThat (inode.sec 12 ≠ 0)
    indirect

/-- The loop of `file_read`: `done` bytes of `size` are in `dst`. -/
def readLoop (disk : Image) (all : Nat → Nat) (size : Nat) :
    Nat → Nat → Nat → Image → Exec (Image × Nat)
  | 0, _, fdPos, dst => return (dst, fdPos)
  | fuel + 1, done, fdPos, dst =>
    if done < size then do
      let secIdx := fdPos / 512
      defined (secIdx < 140)
      let secOffBytes := fdPos % 512
      let secLeftBytes := 512 - secOffBytes
      let chunkSize := if size - done < secLeftBytes then size - done else secLeftBytes
      let ioBuf ← ideRead disk (all secIdx) 1
      readLoop disk all size fuel (done + chunkSize) (addU32 fdPos chunkSize)
        (splice dst done chunkSize (shifted ioBuf secOffBytes))
    else return (dst, fdPos)

/-- `file_read` after its allocations: the result, `none` for -1, the destination buffer
and `fd_pos`. The blocks past index 138 are refused. -/
def readFile (disk : Image) (inode : Inode) (fdPos : Nat) (dst : Image) (count : Nat) :
    Exec (Option Nat × Image × Nat) :=
  let pastEnd := inode.iSize < addU32 fdPos count
  let size := if pastEnd then subU32 inode.iSize fdPos else count
  if pastEnd ∧ size = 0 then return (none, dst, fdPos)
  else do
    let first := fdPos / 512
    let last := addU32 fdPos size / 512
    assertThat (first < 139 ∧ last < 139)
    let all ← readBlocks disk inode first last
    let (dst, fdPos) ← readLoop disk all size size 0 fdPos dst
    return (some size, dst, fdPos)

/-- `file_read` on slot `fdIdx` of the file table. The buffer for one sector is used
without a null check. -/
def fileRead (me : Option Nat) (s : Fs) (fdIdx : Nat) (dst : Image) (count : Nat) :
    Exec (Option Nat × Image × Fs) :=
  let file := s.fileTable fdIdx
  match file.fdInode with
  | .inode addr => do
    defined (Reachable me s addr)
    let inode := s.inodes addr
    let pastEnd := inode.iSize < addU32 file.fdPos count
    if pastEnd ∧ subU32 inode.iSize file.fdPos = 0 then return (none, dst, s)
    else if s.malloc.mallocOk = false then return (none, dst, s.malloc.malloc)
    else
      defined (s.mallocOk = true)
      let s := s.malloc.malloc
      let (r, dst, fdPos) ← readFile s.disk inode file.fdPos dst count
      return (r, dst, s.setFile fdIdx { file with fdPos := fdPos })
  | _ => throw .undefined

end Sparrow
