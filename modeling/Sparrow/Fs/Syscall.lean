import Mathlib.Algebra.Group.Int.Defs
import Sparrow.Fs.Path
import Sparrow.Device.Ioqueue

/-!
# The system calls on files and directories

`fs/fs.c`. The system adds to the mounted partition the tasks, each with its `fd_table`
and working directory, and the directories handed out by `sys_opendir`. A call is made
by the task `pid`; a result of -1 is the integer -1.
-/

namespace Sparrow
set_option autoImplicit false

/-- The fields of `struct task_struct` that concern files; `user` tells a process from a
kernel thread, whose `pgdir` is null. A `parentPid` of -1 is none. -/
structure Proc where
  user : Bool
  parentPid : Int
  fdTable : Nat → Int
  cwdInodeNr : Nat

/-- The whole state. `live` lists the tasks that run; `dirs` holds the directories
`sys_opendir` returned and `sys_closedir` has not closed yet, under the pointers the
callers know them by, 0 being the address of `root_dir`. `pipes` is the ring buffer in
the page of each slot that is a pipe, `console` what was printed for user programs. -/
structure Sys where
  fs : Fs
  procs : Nat → Proc
  live : List Nat
  dirs : List (Nat × Dir)
  nextDir : Nat
  pipes : Nat → Ioqueue
  console : List Byte

/-- Whose heap `sys_malloc` serves for the task. -/
def Sys.heapOf (σ : Sys) (pid : Nat) : Option Nat := if (σ.procs pid).user then some pid else none

def Sys.setProc (σ : Sys) (pid : Nat) (p : Proc) : Sys :=
  { σ with procs := fun i => if i = pid then p else σ.procs i }

def Sys.setFdTable (σ : Sys) (pid : Nat) (t : Nat → Int) : Sys :=
  σ.setProc pid { σ.procs pid with fdTable := t }

/-- An `int32_t` result, -1 for `none`. -/
def intResult : Option Nat → Int
  | none => -1
  | some n => n

/-- A `uint32_t` read as an `int32_t`. -/
def int32 (x : Nat) : Int := (x : Int).bmod (2 ^ 32)

/-- `dir_close` of the parent directory at the end of a call that failed. -/
def closeParent (me : Option Nat) (s : Fs) (r : SearchResult) : Exec Fs := dirClose me s r.parentDir

/-- `sys_open` on the partition and the caller's descriptor table. -/
def openPath (part : Partition) (me : Option Nat) (s : Fs) (fdTable : Nat → Int) (pathname : List Byte)
    (flags : Nat) : Exec (Option Nat × Fs × (Nat → Int)) := do
  defined (pathname ≠ [])
  if pathname.getLast? = some slash then return (none, s, fdTable)
  else
    assertThat (flags ≤ 7)
    let pathnameDepth ← pathDepthCnt pathname
    let (r, s) ← searchFile part me s pathname
    if r.fileType = .directory then
      let s ← closeParent me s r
      return (none, s, fdTable)
    else
      let pathSearchedDepth ← pathDepthCnt r.searchedPath
      if pathnameDepth ≠ pathSearchedDepth then
        let s ← closeParent me s r
        return (none, s, fdTable)
      else match r.inodeNo with
        | none =>
          if flags &&& oCreat = 0 then
            let s ← closeParent me s r
            return (none, s, fdTable)
          else
            let (fd, s, fdTable) ← fileCreate part me s fdTable r.parentDir (lastName pathname) flags
            let s ← closeParent me s r
            return (fd, s, fdTable)
        | some inodeNo =>
          if flags &&& oCreat ≠ 0 then
            let s ← closeParent me s r
            return (none, s, fdTable)
          else fileOpen part me s fdTable inodeNo flags

/-- `sys_open`. -/
def sysOpen (part : Partition) (pid : Nat) (σ : Sys) (pathname : List Byte) (flags : Nat) :
    Exec (Int × Sys) := do
  let (fd, s, fdTable) ← openPath part (σ.heapOf pid) σ.fs (σ.procs pid).fdTable pathname flags
  return (intResult fd, { σ with fs := s }.setFdTable pid fdTable)

/-- `fd_local2global`. The entries past `fd_table` are other fields of the task. -/
def fdLocal2Global (fdTable : Nat → Int) (localFd : Nat) : Exec Nat := do
  defined (localFd < maxFilesOpenPerProc)
  let globalFd := fdTable localFd
  assertThat (0 ≤ globalFd ∧ globalFd < maxFileOpen)
  return globalFd.toNat

theorem fdLocal2Global_iff {fdTable : Nat → Int} {localFd g : Nat} : fdLocal2Global fdTable localFd = .ok g ↔
    localFd < maxFilesOpenPerProc ∧ (0 ≤ fdTable localFd ∧ fdTable localFd < maxFileOpen) ∧ (fdTable localFd).toNat = g := by
  simp only [fdLocal2Global, bind_ok, defined_ok, assertThat_ok, pure_ok, exists_const]

theorem fdLocal2Global_ok {fdTable : Nat → Int} {i g : Nat} (h : fdLocal2Global fdTable i = .ok g) :
    i < maxFilesOpenPerProc ∧ g < maxFileOpen ∧ fdTable i = g := by
  obtain ⟨lt, range, rfl⟩ := fdLocal2Global_iff.1 h
  exact ⟨lt, by omega, by omega⟩

/-- `is_pipe` for a slot of the file table. -/
def isPipe (s : Fs) (globalFd : Nat) : Bool := (s.fileTable globalFd).fdFlag == pipeFlag

/-- One descriptor of a pipe less: the last one frees the page of its ring buffer. -/
def dropPipe (s : Fs) (globalFd : Nat) : Exec Fs := do
  let file := s.fileTable globalFd
  let fdPos := subU32 file.fdPos 1
  if fdPos = 0 then
    assertThat (file.fdInode ≠ .null)
    return s.setFile globalFd { file with fdPos := fdPos, fdInode := .null }
  else return s.setFile globalFd { file with fdPos := fdPos }

/-- The part of `sys_close` that acts on the file table. -/
def closeSlot (me : Option Nat) (s : Fs) (globalFd : Nat) : Exec Fs :=
  if isPipe s globalFd then dropPipe s globalFd else fileClose me s globalFd

/-- `sys_close`. -/
def sysClose (pid : Nat) (σ : Sys) (fd : Int) : Exec (Int × Sys) :=
  if fd ≤ 2 then return (-1, σ)
  else do
    let globalFd ← fdLocal2Global (σ.procs pid).fdTable fd.toNat
    let s ← closeSlot (σ.heapOf pid) σ.fs globalFd
    return (0, { σ with fs := s }.setFdTable pid
      (fun i => if i = fd.toNat then -1 else (σ.procs pid).fdTable i))

/-- `pipe_write` on slot `globalFd`. -/
def pipeWrite (σ : Sys) (globalFd : Nat) (buf : Image) (count : Nat) : Exec (Int × Sys) := do
  defined ((σ.fs.fileTable globalFd).fdInode = .pipe)
  let ioqLeft := ioqBufsize - ioqLength (σ.pipes globalFd)
  let size := if count < ioqLeft then count else ioqLeft
  let ioq ← ioqPutAll (σ.pipes globalFd) ((List.range size).map buf)
  return (size, { σ with pipes := fun i => if i = globalFd then ioq else σ.pipes i })

/-- `pipe_read` on slot `globalFd`. -/
def pipeRead (σ : Sys) (globalFd : Nat) (dst : Image) (count : Nat) : Exec (Int × Image × Sys) := do
  defined ((σ.fs.fileTable globalFd).fdInode = .pipe)
  let ioqLen := ioqLength (σ.pipes globalFd)
  let size := if count < ioqLen then count else ioqLen
  let (bytes, ioq) ← ioqGetAll size (σ.pipes globalFd)
  return (size, splice dst 0 size fun i => bytes.getD i 0#8, { σ with pipes := fun i => if i = globalFd then ioq else σ.pipes i })

/-- The screen branch of `sys_write`: the bytes pass through a zeroed array of 1024 and
are printed as a string. -/
def consoleWrite (σ : Sys) (buf : Image) (count : Nat) : Exec (Int × Sys) := do
  let tmpBuf := splice zeros 0 count buf
  let str := ((List.range 1024).map tmpBuf).takeWhile (· != 0#8)
  defined (count ≤ 1024 ∧ str.length < 1024)
  return (count, { σ with console := σ.console ++ str })

/-- `sys_write` on a descriptor that is neither a pipe nor the screen. -/
def sysWriteFile (part : Partition) (pid : Nat) (σ : Sys) (globalFd : Nat) (buf : Image) (count : Nat) :
    Exec (Int × Sys) :=
  if ForWrite (σ.fs.fileTable globalFd).fdFlag then do
    let (r, s) ← fileWrite part (σ.heapOf pid) σ.fs globalFd buf count
    return (intResult r, { σ with fs := s })
  else return (-1, σ)

/-- `sys_write`. -/
def sysWrite (part : Partition) (pid : Nat) (σ : Sys) (fd : Int) (buf : Image) (count : Nat) :
    Exec (Int × Sys) :=
  if fd < 0 then return (-1, σ)
  else do
    let globalFd ← fdLocal2Global (σ.procs pid).fdTable fd.toNat
    if isPipe σ.fs globalFd then pipeWrite σ globalFd buf count
    else if fd = 1 then consoleWrite σ buf count
    else sysWriteFile part pid σ globalFd buf count

/-- `sys_read`, with the buffer of the keyboard: the result and what is stored in `buf`. -/
def sysRead (pid : Nat) (σ : Sys) (kbdBuf : Ioqueue) (fd : Int) (buf : Option Image) (count : Nat) :
    Exec (Int × Image × Ioqueue × Sys) :=
  match buf with
  | none => throw .assert
  | some dst =>
    if fd < 0 ∨ fd = 1 ∨ fd = 2 then return (-1, dst, kbdBuf, σ)
    else do
      let globalFd ← fdLocal2Global (σ.procs pid).fdTable fd.toNat
      if isPipe σ.fs globalFd then
        let (r, dst, σ) ← pipeRead σ globalFd dst count
        return (r, dst, kbdBuf, σ)
      else if fd = 0 then
        let (bytes, kbdBuf) ← ioqGetAll count kbdBuf
        return (if count = 0 then -1 else int32 count, splice dst 0 count fun i => bytes.getD i 0#8, kbdBuf, σ)
      else
        let (r, dst, s) ← fileRead (σ.heapOf pid) σ.fs globalFd dst count
        return (intResult r, dst, kbdBuf, { σ with fs := s })

/-- `sys_lseek`. The offset and the positions are signed; a sum out of their range has no
defined value. -/
def sysLseek (pid : Nat) (σ : Sys) (fd offset : Int) (whence : Nat) : Exec (Int × Sys) :=
  if fd < 0 then return (-1, σ)
  else do
    assertThat (0 < whence ∧ whence < 4)
    let globalFd ← fdLocal2Global (σ.procs pid).fdTable fd.toNat
    let pf := σ.fs.fileTable globalFd
    match pf.fdInode with
    | .inode addr => do
      defined (Reachable (σ.heapOf pid) σ.fs addr)
      let fileSize := int32 (σ.fs.inodes addr).iSize
      let newPos := if whence = 1 then offset else if whence = 2 then int32 pf.fdPos + offset else fileSize + offset
      defined (-2 ^ 31 ≤ newPos ∧ newPos < 2 ^ 31 ∧ -2 ^ 31 < fileSize)
      if newPos < 0 ∨ fileSize - 1 < newPos then return (-1, σ)
      else return (newPos, { σ with fs := σ.fs.setFile globalFd { pf with fdPos := newPos.toNat } })
    | _ => throw .undefined

/-- The loop of `sys_unlink` over the file table: some slot has an inode of this number.
A slot of a pipe does not: the first word of a ring buffer is the holder of its lock,
null or a kernel address. -/
def inUse (me : Option Nat) (s : Fs) (inodeNo : Nat) : List Nat → Exec Bool
  | [] => return false
  | i :: rest =>
    match (s.fileTable i).fdInode with
    | .inode addr => do
      defined (Reachable me s addr)
      if (s.inodes addr).iNo = inodeNo then return true
      else inUse me s inodeNo rest
    | _ => inUse me s inodeNo rest

/-- The end of `sys_unlink`: the entry goes, then the inode. -/
def unlinkFound (part : Partition) (me : Option Nat) (s : Fs) (r : SearchResult) (inodeNo : Nat) :
    Exec (Option Unit × Fs) := do
  if s.mallocOk = false then
    let s ← closeParent me s.malloc r
    return (none, s)
  else
    let s := s.malloc
    defined (Reachable me s r.parentDir.inode)
    let (_, v) ← deleteDirEntry part (s.vnode r.parentDir.inode) inodeNo
    let s ← inodeRelease part me (s.setVnode r.parentDir.inode v) inodeNo
    let s ← closeParent me s r
    return (some (), s)

/-- `sys_unlink` on the partition; `none` stands for -1. -/
def unlinkPath (part : Partition) (me : Option Nat) (s : Fs) (pathname : List Byte) :
    Exec (Option Unit × Fs) := do
  assertThat (pathname.length < maxPathLen)
  let (r, s) ← searchFile part me s pathname
  assertThat (r.inodeNo ≠ some 0)
  match r.inodeNo with
  | none =>
    let s ← closeParent me s r
    return (none, s)
  | some inodeNo =>
    if r.fileType = .directory then
      let s ← closeParent me s r
      return (none, s)
    else
      let used ← inUse me s inodeNo (List.range maxFileOpen)
      if used then
        let s ← closeParent me s r
        return (none, s)
      else unlinkFound part me s r inodeNo

/-- An `int32_t` result, 0 for success and -1 for `none`. -/
def unitResult : Option Unit → Int
  | none => -1
  | some () => 0

/-- `sys_unlink`. -/
def sysUnlink (part : Partition) (pid : Nat) (σ : Sys) (pathname : List Byte) : Exec (Int × Sys) := do
  let (r, s) ← unlinkPath part (σ.heapOf pid) σ.fs pathname
  return (unitResult r, { σ with fs := s })

/-- The sector with the entries `.` and `..` of a new directory. -/
def dotsImage (inodeNo parentNo : Nat) : Image :=
  splice (splice zeros 0 direntSize
      (DirEntry.image ⟨fun i => dot.getD i.val 0#8, inodeNo, FileTypes.directory.code⟩))
    direntSize direntSize (DirEntry.image ⟨fun i => dotDot.getD i.val 0#8, parentNo, FileTypes.directory.code⟩)

/-- The end of `sys_mkdir`: the entry is in the parent; both inodes and the inode bitmap
follow. -/
def dirCreated (part : Partition) (s : Fs) (parentInode : Nat) (newDirInode : Inode) (inodeNo : Nat) :
    Exec Fs := do
  let disk ← inodeSync part s.disk (s.inodes parentInode)
  let disk ← inodeSync part disk newDirInode
  let disk ← bitmapSync disk part.sb.inodeBitmapLba s.inodeBitmap inodeNo
  return { s with disk := disk }

/-- `sys_mkdir` from the allocation of the inode on, with its rollback step 2. -/
def makeDir (part : Partition) (me : Option Nat) (s : Fs) (parentDir : Dir) (dirname : List Byte) :
    Exec (Option Unit × Fs) :=
  match inodeBitmapAlloc s.inodeBitmap with
  | (none, _) => return (none, s)
  | (some inodeNo, b) => do
    let s := { s with inodeBitmap := b }
    let undo := fun s : Fs => { s with inodeBitmap := bitmapSet s.inodeBitmap inodeNo false }
    match blockBitmapAlloc part.sb s.blockBitmap with
    | (none, b) => return (none, undo { s with blockBitmap := b })
    | (some lba, b) => do
      assertThat (subU32 lba part.sb.dataStartLba ≠ 0)
      let disk ← syncBlock part s.disk b lba
      defined (Reachable me s parentDir.inode)
      let disk ← ideWrite disk lba 1 (dotsImage inodeNo (s.inodes parentDir.inode).iNo)
      let s := { s with blockBitmap := b, disk := disk }
      let newDirInode := { (inodeInit inodeNo).setSec 0 lba with iSize := 2 * part.sb.dirEntrySize }
      let newDirEntry ← createDirEntry dirname inodeNo .directory
      let (ok, v) ← syncDirEntry part (s.vnode parentDir.inode) newDirEntry
      let s := s.setVnode parentDir.inode v
      if ok = false then return (none, undo s)
      else
        let s ← dirCreated part s parentDir.inode newDirInode inodeNo
        return (some (), s)

/-- `sys_mkdir` on the partition; `none` stands for -1. -/
def mkdirPath (part : Partition) (me : Option Nat) (s : Fs) (pathname : List Byte) :
    Exec (Option Unit × Fs) := do
  if s.mallocOk = false then return (none, s.malloc)
  else
    let (r, s) ← searchFile part me s.malloc pathname
    if r.inodeNo ≠ none then
      let s ← closeParent me s r
      return (none, s)
    else
      let pathnameDepth ← pathDepthCnt pathname
      let pathSearchedDepth ← pathDepthCnt r.searchedPath
      if pathnameDepth ≠ pathSearchedDepth then
        let s ← closeParent me s r
        return (none, s)
      else
        let (ok, s) ← makeDir part me s r.parentDir (lastName r.searchedPath)
        let s ← closeParent me s r
        return (ok, s)

/-- `sys_mkdir`. -/
def sysMkdir (part : Partition) (pid : Nat) (σ : Sys) (pathname : List Byte) : Exec (Int × Sys) := do
  let (r, s) ← mkdirPath part (σ.heapOf pid) σ.fs pathname
  return (unitResult r, { σ with fs := s })

/-- `sys_rmdir` on the partition; `none` stands for -1. -/
def rmdirPath (part : Partition) (me : Option Nat) (s : Fs) (pathname : List Byte) :
    Exec (Option Unit × Fs) := do
  let (r, s) ← searchFile part me s pathname
  assertThat (r.inodeNo ≠ some 0)
  match r.inodeNo with
  | none =>
    let s ← closeParent me s r
    return (none, s)
  | some inodeNo =>
    if r.fileType = .regular then
      let s ← closeParent me s r
      return (none, s)
    else
      let (dir, s) ← dirOpen part me s inodeNo
      let (ok, s) ←
        if dirIsEmpty part (s.inodes dir.inode) then dirRemove part me s r.parentDir dir
        else pure (none, s)
      let s ← dirClose me s dir
      let s ← closeParent me s r
      return (ok, s)

/-- `sys_rmdir`. -/
def sysRmdir (part : Partition) (pid : Nat) (σ : Sys) (pathname : List Byte) : Exec (Int × Sys) := do
  let (r, s) ← rmdirPath part (σ.heapOf pid) σ.fs pathname
  return (unitResult r, { σ with fs := s })

/-- `sys_opendir` on the partition: the directory opened, `none` for the null pointer.
The test `name[0] == '.'` of the source can never hold beside `name[0] == '/'`. -/
def opendirPath (part : Partition) (me : Option Nat) (s : Fs) (name : List Byte) :
    Exec (Option Dir × Fs) := do
  assertThat (name.length < maxPathLen)
  if name = [slash] then return (some s.root, s)
  else
    let (r, s) ← searchFile part me s name
    match r.inodeNo, r.fileType with
    | some inodeNo, .directory => do
      let (dir, s) ← dirOpen part me s inodeNo
      let s ← closeParent me s r
      return (some dir, s)
    | _, _ => do
      let s ← closeParent me s r
      return (none, s)

/-- `sys_opendir`: the pointer returned, 0 being `&root_dir`; `none` is the null pointer. -/
def sysOpendir (part : Partition) (pid : Nat) (σ : Sys) (name : List Byte) : Exec (Option Nat × Sys) := do
  let (r, s) ← opendirPath part (σ.heapOf pid) σ.fs name
  match r with
  | none => return (none, { σ with fs := s })
  | some dir =>
    if dir.isRoot then return (some 0, { σ with fs := s })
    else return (some σ.nextDir, { σ with
      fs := s, dirs := (σ.nextDir, dir) :: σ.dirs, nextDir := σ.nextDir + 1 })

/-- `sys_closedir` of a pointer `sys_opendir` returned, or of the null pointer. -/
def sysClosedir (pid : Nat) (σ : Sys) (dir : Option Nat) : Exec (Int × Sys) :=
  match dir with
  | none => return (-1, σ)
  | some ptr =>
    if ptr = 0 then return (0, σ)
    else match σ.dirs.lookup ptr with
      | none => throw .undefined
      | some d => do
        let s ← dirClose (σ.heapOf pid) σ.fs d
        return (0, { σ with fs := s, dirs := σ.dirs.filter fun x => x.1 ≠ ptr })

/-- What a `struct dir *` points to. -/
def Sys.dir (σ : Sys) (ptr : Nat) : Option Dir := if ptr = 0 then some σ.fs.root else σ.dirs.lookup ptr

/-- `sys_readdir` of the directory at `ptr`, with its place in the listing. -/
def readDirectory (part : Partition) (pid : Nat) (σ : Sys) (ptr : Nat) (c : Cursor) : Exec (Option DirEntry × Cursor) :=
  match σ.dir ptr with
  | none => throw .undefined
  | some dir => do
    defined (Reachable (σ.heapOf pid) σ.fs dir.inode ∧ dir.inode ∈ σ.fs.openInodes)
    dirRead part σ.fs.disk (σ.fs.inodes dir.inode) c

/-- `sys_chdir`. -/
def sysChdir (part : Partition) (pid : Nat) (σ : Sys) (path : List Byte) : Exec (Int × Sys) := do
  let me := σ.heapOf pid
  let (r, s) ← searchFile part me σ.fs path
  let s' ← closeParent me s r
  match r.inodeNo, r.fileType with
  | some inodeNo, .directory =>
    return (0, { σ with fs := s' }.setProc pid { σ.procs pid with cwdInodeNr := inodeNo })
  | _, _ => return (-1, { σ with fs := s' })

/-- `get_parent_dir_inode_nr`: the number in the second entry of the first block. -/
def getParentDirInodeNr (part : Partition) (me : Option Nat) (s : Fs) (childInodeNr : Nat) : Exec (Nat × Fs) := do
  let (addr, s) ← inodeOpen part me s childInodeNr
  let blockLba := (s.inodes addr).sec 0
  assertThat (part.sb.dataStartLba ≤ blockLba)
  let s ← inodeClose me s addr
  let ioBuf ← ideRead s.disk blockLba 1
  let dirE := decodeDirent ioBuf 0 1
  assertThat (dirE.iNo < 4096 ∧ dirE.fType = FileTypes.directory.code)
  return (dirE.iNo, s)

/-- `strcat(path, "/"); strcat(path, filename)` into 512 bytes, for the entry in slot `j` of
the sector in `ioBuf`. -/
def appendName (path : List Byte) (ioBuf : Image) (j : Nat) : Exec (List Byte) := do
  let name := ((List.range (512 - direntSize * j)).map fun i => ioBuf (direntSize * j + i)).takeWhile (· != 0#8)
  defined (direntSize * j + name.length < 512 ∧ path.length + 1 + name.length < maxPathLen)
  return path ++ slash :: name

/-- The loop of `get_child_dir_name` over the blocks of the parent. -/
def childNameBlocks (part : Partition) (disk : Image) (cInodeNr : Nat) (path : List Byte) :
    List Nat → Exec (Option (List Byte))
  | [] => return none
  | lba :: rest =>
    if lba = 0 then childNameBlocks part disk cInodeNr path rest
    else do
      let ioBuf ← ideRead disk lba 1
      match (List.range (512 / part.sb.dirEntrySize)).find? fun j => (decodeDirent ioBuf 0 j).iNo = cInodeNr with
      | some j => do
        let path ← appendName path ioBuf j
        return some path
      | none => childNameBlocks part disk cInodeNr path rest

/-- `get_child_dir_name`: the path with the name of the child, `none` for -1. -/
def getChildDirName (part : Partition) (me : Option Nat) (s : Fs) (pInodeNr cInodeNr : Nat) (path : List Byte) :
    Exec (Option (List Byte) × Fs) := do
  let (addr, s) ← inodeOpen part me s pInodeNr
  let all ← allBlocks s.disk (s.inodes addr)
  let s ← inodeClose me s addr
  let r ← childNameBlocks part s.disk cInodeNr path ((List.range 140).map all)
  return (r, s)

/-- The loop of `sys_getcwd` from directory to directory up to the root. Every turn adds a
byte to the path, which has 512. -/
def climb (part : Partition) (me : Option Nat) : Nat → Nat → List Byte → Fs → Exec (Option (List Byte) × Fs)
  | 0, _, _, _ => throw .undefined
  | fuel + 1, childInodeNr, path, s =>
    if childInodeNr = 0 then return (some path, s)
    else do
      let (parentInodeNr, s) ← getParentDirInodeNr part me s childInodeNr
      let (found, s) ← getChildDirName part me s parentInodeNr childInodeNr path
      match found with
      | none => return (none, s)
      | some path => climb part me fuel parentInodeNr path s

/-- The loop of `sys_getcwd` that copies the names in the other order, from the last slash
on. -/
def turnRound : Nat → List Byte → List Byte → List Byte
  | 0, _, buf => buf
  | fuel + 1, path, buf =>
    if slash ∈ path then turnRound fuel (path.take (path.length - (lastName path).length - 1)) (buf ++ slash :: lastName path)
    else buf

/-- `sys_getcwd`: the string in `buf`, `none` for the null pointer. -/
def sysGetcwd (part : Partition) (pid : Nat) (σ : Sys) (buf : Option Nat) (size : Nat) :
    Exec (Option (List Byte) × Sys) := do
  assertThat (buf ≠ none)
  if σ.fs.mallocOk = false then return (none, { σ with fs := σ.fs.malloc })
  else
    let childInodeNr := (σ.procs pid).cwdInodeNr
    assertThat (childInodeNr < 4096)
    if childInodeNr = 0 then
      defined (2 ≤ size)
      return (some [slash], { σ with fs := σ.fs.malloc })
    else
      let (found, s) ← climb part (σ.heapOf pid) (maxPathLen + 1) childInodeNr [] σ.fs.malloc
      match found with
      | none => return (none, { σ with fs := s })
      | some path => do
        assertThat (path.length ≤ size)
        defined (path.length < size)
        return (some (turnRound path.length path []), { σ with fs := s })

/-- `struct stat`. -/
structure Stat where
  stIno : Nat
  stSize : Nat
  stFiletype : FileTypes
  deriving DecidableEq, Repr

/-- `sys_stat` on the partition; `none` stands for -1. -/
def statPath (part : Partition) (me : Option Nat) (s : Fs) (path : List Byte) : Exec (Option Stat × Fs) := do
  if path = [slash] ∨ path = [slash, 0x2e#8] ∨ path = [slash, 0x2e#8, 0x2e#8] then
    return (some ⟨0, (s.inodes s.rootDir).iSize, .directory⟩, s)
  else
    let (r, s) ← searchFile part me s path
    match r.inodeNo with
    | none =>
      let s ← closeParent me s r
      return (none, s)
    | some inodeNo =>
      let (addr, s) ← inodeOpen part me s inodeNo
      let stSize := (s.inodes addr).iSize
      let s ← inodeClose me s addr
      let s ← closeParent me s r
      return (some ⟨inodeNo, stSize, r.fileType⟩, s)

/-- `sys_stat`: the return value and what is stored through `buf`. -/
def sysStat (part : Partition) (pid : Nat) (σ : Sys) (path : List Byte) : Exec (Int × Option Stat × Sys) := do
  let (r, s) ← statPath part (σ.heapOf pid) σ.fs path
  return (if r.isSome then 0 else -1, r, { σ with fs := s })

end Sparrow
