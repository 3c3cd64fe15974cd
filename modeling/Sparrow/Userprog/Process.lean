import Mathlib.Logic.Relation
import Sparrow.Fs.Syscall

/-!
# Descriptors across processes

`shell/pipe.c`, `userprog/fork.c` and `userprog/wait_exit.c` as far as they touch
descriptors, and the system calls of files and processes as one type of calls. The copy
of the address space in `sys_fork` and its release in `sys_exit` are left out, but for
the pages whose failed allocation makes `sys_fork` return -1.
-/

namespace Sparrow
set_option autoImplicit false

/-- `sys_pipe`: the return value and the two descriptors. Without a free slot it stores
in front of the file table, and the ring buffer is initialised before its page is
tested. -/
def sysPipe (pid : Nat) (σ : Sys) : Exec (Int × (Int × Int) × Sys) :=
  match getFreeSlotInGlobal σ.fs.fileTable with
  | none => throw .undefined
  | some globalFd => do
    let s ← mustMalloc σ.fs
    let s := s.setFile globalFd ⟨2, pipeFlag, .pipe⟩
    let (fd0, fdTable) := pcbFdInstall (σ.procs pid).fdTable globalFd
    let (fd1, fdTable) := pcbFdInstall fdTable globalFd
    return (0, (intResult fd0, intResult fd1), { σ with
      fs := s, pipes := fun i => if i = globalFd then ioqueueInit else σ.pipes i }.setFdTable pid fdTable)

/-- `sys_fd_redirect`. The entries past `fd_table` are other fields of the task. -/
def sysFdRedirect (pid : Nat) (σ : Sys) (oldLocalFd newLocalFd : Nat) : Exec Sys := do
  defined (oldLocalFd < maxFilesOpenPerProc ∧ newLocalFd < maxFilesOpenPerProc)
  let fdTable := (σ.procs pid).fdTable
  let entry := if newLocalFd < 3 then (newLocalFd : Int) else fdTable newLocalFd
  return σ.setFdTable pid (fun i => if i = oldLocalFd then entry else fdTable i)

/-- The local descriptors that can be closed. -/
def localFds : List Nat := List.range' 3 (maxFilesOpenPerProc - 3)

/-- One turn of `update_inode_open_cnts`: `is_pipe` asks for the parent's descriptor, which
is the child's. -/
def updateInodeOpenCnt (me : Option Nat) (fdTable : Nat → Int) (s : Fs) (localFd : Nat) : Exec Fs := do
  assertThat (fdTable localFd < maxFileOpen)
  if fdTable localFd = -1 then return s
  else
    let globalFd ← fdLocal2Global fdTable localFd
    let file := s.fileTable globalFd
    if isPipe s globalFd then return s.setFile globalFd { file with fdPos := addU32 file.fdPos 1 }
    else match file.fdInode with
      | .inode addr => do
        defined (Reachable me s addr)
        return s.setInode addr { s.inodes addr with iOpenCnts := addU32 (s.inodes addr).iOpenCnts 1 }
      | _ => throw .undefined

/-- `update_inode_open_cnts`. -/
def updateInodeOpenCnts (me : Option Nat) (fdTable : Nat → Int) (s : Fs) : Exec Fs :=
  localFds.foldlM (updateInodeOpenCnt me fdTable) s

/-- Pages allocated one after another up to the first failure. -/
def getPages : Nat → Fs → Bool × Fs
  | 0, s => (true, s)
  | k + 1, s => if s.mallocOk then getPages k s.malloc else (false, s.malloc)

/-- `sys_fork`, `child` being the number `fork_pid` hands out. The pages are the task
structure, then a buffer, a bitmap and a page directory. -/
def sysFork (pid child : Nat) (σ : Sys) : Exec (Int × Sys) := do
  let (ok, s) := getPages 1 σ.fs
  if ok = false then return (-1, { σ with fs := s })
  else
    assertThat ((σ.procs pid).user = true)
    let (ok, s) := getPages 3 s
    if ok = false then return (-1, { σ with fs := s })
    else
      let s ← updateInodeOpenCnts (σ.heapOf pid) (σ.procs pid).fdTable s
      return (child, { { σ with fs := s }.setProc child { σ.procs pid with parentPid := pid } with
        live := child :: σ.live })

/-- `init_adopt_a_child` for every task. -/
def adopt (pid : Nat) (σ : Sys) : Sys :=
  { σ with procs := fun i => if (σ.procs i).parentPid = pid then { σ.procs i with parentPid := 1 } else σ.procs i }

/-- One turn of the loop of `release_prog_resource` over the descriptors; that of a pipe
keeps its entry. -/
def releaseDescriptor (pid : Nat) (σ : Sys) (localFd : Nat) : Exec Sys :=
  if (σ.procs pid).fdTable localFd = -1 then return σ
  else do
    let globalFd ← fdLocal2Global (σ.procs pid).fdTable localFd
    if isPipe σ.fs globalFd then
      let s ← dropPipe σ.fs globalFd
      return { σ with fs := s }
    else
      let (_, σ) ← sysClose pid σ localFd
      return σ

/-- `sys_exit` up to the point where the process is no longer run. -/
def sysExit (pid : Nat) (σ : Sys) : Exec Sys := do
  assertThat ((σ.procs pid).parentPid ≠ -1)
  defined ((σ.procs pid).user = true)
  let σ ← localFds.foldlM (releaseDescriptor pid) (adopt pid σ)
  return { σ with live := σ.live.filter (· ≠ pid) }

/-- What `load` does with the program it has open. -/
inductive LoadStep where
  | lseek (offset : Int)
  | read (count : Nat)

def loadStep (pid : Nat) (fd : Int) (σ : Sys) : LoadStep → Exec Sys
  | .lseek offset => do
    let (_, σ) ← sysLseek pid σ fd offset 1
    return σ
  | .read count => do
    let (_, _, _, σ) ← sysRead pid σ ioqueueInit fd (some zeros) count
    return σ

/-- `sys_execv` as far as it touches descriptors: `load` opens the program, reads parts of it and
closes it. The bytes it reads decide on its steps and on whether it succeeds; here both are
arguments. -/
def sysExecv (part : Partition) (pid : Nat) (σ : Sys) (path : List Byte) (steps : List LoadStep) (loaded : Bool) :
    Exec (Int × Sys) := do
  let (fd, σ) ← sysOpen part pid σ path 0
  if fd = -1 then return (-1, σ)
  else
    let σ ← steps.foldlM (loadStep pid fd) σ
    let (_, σ) ← sysClose pid σ fd
    return (if loaded then 0 else -1, σ)

/-- The system calls on files, directories, pipes and processes with their arguments. A read has the
buffer of the keyboard with it, `sys_readdir` the place in the listing. -/
inductive Call where
  | open (pathname : List Byte) (flags : Nat)
  | close (fd : Int)
  | read (kbdBuf : Ioqueue) (fd : Int) (buf : Option Image) (count : Nat)
  | write (fd : Int) (buf : Image) (count : Nat)
  | lseek (fd offset : Int) (whence : Nat)
  | unlink (pathname : List Byte)
  | mkdir (pathname : List Byte)
  | rmdir (pathname : List Byte)
  | opendir (name : List Byte)
  | readdir (dir : Nat) (place : Cursor)
  | closedir (dir : Option Nat)
  | getcwd (buf : Option Nat) (size : Nat)
  | chdir (path : List Byte)
  | stat (path : List Byte)
  | pipe
  | fdRedirect (oldLocalFd newLocalFd : Nat)
  | fork (child : Nat)
  | execv (path : List Byte) (steps : List LoadStep) (loaded : Bool)
  | exit

/-- The call made by task `pid`: its result and the state after it. A call that returns no
number counts as 0, a null pointer as -1. -/
def exec (part : Partition) (pid : Nat) (σ : Sys) : Call → Exec (Int × Sys)
  | .open pathname flags => sysOpen part pid σ pathname flags
  | .close fd => sysClose pid σ fd
  | .read kbdBuf fd buf count => do
    let (r, _, _, σ) ← sysRead pid σ kbdBuf fd buf count
    return (r, σ)
  | .write fd buf count => sysWrite part pid σ fd buf count
  | .lseek fd offset whence => sysLseek pid σ fd offset whence
  | .unlink pathname => sysUnlink part pid σ pathname
  | .mkdir pathname => sysMkdir part pid σ pathname
  | .rmdir pathname => sysRmdir part pid σ pathname
  | .opendir name => do
    let (ptr, σ) ← sysOpendir part pid σ name
    return (intResult ptr, σ)
  | .readdir dir place => do
    let (e, _) ← readDirectory part pid σ dir place
    return (if e.isSome then 0 else -1, σ)
  | .closedir dir => sysClosedir pid σ dir
  | .getcwd buf size => do
    let (path, σ) ← sysGetcwd part pid σ buf size
    return (if path.isSome then 0 else -1, σ)
  | .chdir path => sysChdir part pid σ path
  | .stat path => do
    let (r, _, σ) ← sysStat part pid σ path
    return (r, σ)
  | .pipe => do
    let (r, _, σ) ← sysPipe pid σ
    return (r, σ)
  | .fdRedirect oldLocalFd newLocalFd => do
    let σ ← sysFdRedirect pid σ oldLocalFd newLocalFd
    return (0, σ)
  | .fork child => sysFork pid child σ
  | .execv path steps loaded => sysExecv part pid σ path steps loaded
  | .exit => do
    let σ ← sysExit pid σ
    return (0, σ)

/-- Memory was asked for, and the position in a slot moved. -/
def Fs.Moved (s t : Fs) : Prop :=
  ∃ g pos mallocs, t = { s with mallocs := mallocs }.setFile g { s.fileTable g with fdPos := pos }

section Moves

variable {pid count : Nat} {σ σ' : Sys} {fd r : Int}

theorem Fs.moved_mallocs (s : Fs) (mallocs : List Bool) : s.Moved { s with mallocs := mallocs } := by
  refine ⟨0, (s.fileTable 0).fdPos, mallocs, ?_⟩
  have same : (fun i => if i = 0 then s.fileTable 0 else s.fileTable i) = s.fileTable := by
    funext i
    split
    · rename_i zero
      rw [zero]
    · rfl
  rw [Fs.setFile]
  exact congrArg (fun table => { s with mallocs := mallocs, fileTable := table }) same.symm

theorem Fs.Moved.refl (s : Fs) : s.Moved s := s.moved_mallocs s.mallocs

theorem fileRead_moved {me : Option Nat} {s t : Fs} {g : Nat} {dst dst' : Image} {n : Option Nat}
    (h : fileRead me s g dst count = .ok (n, dst', t)) : s.Moved t := by
  simp only [fileRead] at h
  split at h
  · simp only [bind_ok, defined_ok, exists_const] at h
    obtain ⟨-, h⟩ := h
    split at h
    · rw [pure_ok] at h
      cases h
      exact .refl s
    split at h
    · rw [pure_ok] at h
      cases h
      exact s.moved_mallocs _
    · simp only [bind_ok, defined_ok, pure_ok, exists_const, Prod.exists] at h
      obtain ⟨-, n', dst1, pos, -, h⟩ := h
      cases h
      exact ⟨g, pos, _, rfl⟩
  · exact (throw_ok.1 h).elim

/-- **`sys_read`** moves the position of a slot, or takes bytes out of a pipe. -/
theorem sysRead_moved {kbdBuf kbdBuf' : Ioqueue} {buf : Option Image} {dst : Image}
    (h : sysRead pid σ kbdBuf fd buf count = .ok (r, dst, kbdBuf', σ')) :
    ∃ s pipes, σ' = { σ with fs := s, pipes := pipes } ∧ σ.fs.Moved s := by
  simp only [sysRead] at h
  split at h
  · exact (throw_ok.1 h).elim
  split at h
  · rw [pure_ok] at h
    cases h
    exact ⟨σ.fs, σ.pipes, rfl, .refl _⟩
  simp only [bind_ok] at h
  obtain ⟨g, -, h⟩ := h
  split at h
  · simp only [pipeRead, bind_ok, defined_ok, pure_ok, exists_const, Prod.exists] at h
    obtain ⟨_, _, _, ⟨-, _, _, -, e⟩, h⟩ := h
    cases e
    cases h
    exact ⟨σ.fs, _, rfl, .refl _⟩
  split at h
  · simp only [bind_ok, pure_ok, Prod.exists] at h
    obtain ⟨_, _, -, h⟩ := h
    cases h
    exact ⟨σ.fs, σ.pipes, rfl, .refl _⟩
  · simp only [bind_ok, pure_ok, Prod.exists] at h
    obtain ⟨n, dst', s, read, h⟩ := h
    cases h
    exact ⟨s, σ.pipes, rfl, fileRead_moved read⟩

/-- **`sys_lseek`** moves the position of a slot. -/
theorem sysLseek_moved {offset : Int} {whence : Nat} (h : sysLseek pid σ fd offset whence = .ok (r, σ')) :
    ∃ s, σ' = { σ with fs := s } ∧ σ.fs.Moved s := by
  rw [sysLseek] at h
  split at h
  · rw [pure_ok] at h
    cases h
    exact ⟨σ.fs, rfl, .refl _⟩
  simp only [bind_ok, assertThat_ok, exists_const] at h
  obtain ⟨-, g, -, h⟩ := h
  split at h
  · rename_i addr _
    simp only [bind_ok, defined_ok, exists_const] at h
    obtain ⟨newPos, isPos⟩ : ∃ p, p = if whence = 1 then offset else if whence = 2 then
      int32 (σ.fs.fileTable g).fdPos + offset else int32 (σ.fs.inodes addr).iSize + offset := ⟨_, rfl⟩
    rw [← isPos] at h
    obtain ⟨-, -, h⟩ := h
    split at h
    · rw [pure_ok] at h
      cases h
      exact ⟨σ.fs, rfl, .refl _⟩
    · rw [pure_ok] at h
      cases h
      exact ⟨_, rfl, g, _, σ.fs.mallocs, rfl⟩
  · exact (throw_ok.1 h).elim

end Moves

/-- One call of the system. `ok` says which task may make which call in a state, and with
which result it counts. -/
def Step (part : Partition) (ok : Sys → Nat → Call → Int → Prop) (σ σ' : Sys) : Prop :=
  ∃ pid call r, ok σ pid call r ∧ exec part pid σ call = .ok (r, σ')

/-- A run of the system: any interleaving of calls. -/
abbrev Run (part : Partition) (ok : Sys → Nat → Call → Int → Prop) : Sys → Sys → Prop :=
  Relation.ReflTransGen (Step part ok)

/-- What every step preserves holds along every run. -/
theorem Run.invariant {part : Partition} {ok : Sys → Nat → Call → Int → Prop} {I : Sys → Prop} {σ σ' : Sys}
    (preserved : ∀ σ σ' pid call r, I σ → ok σ pid call r → exec part pid σ call = .ok (r, σ') → I σ')
    (run : Run part ok σ σ') (init : I σ) : I σ' := by
  induction run with
  | refl => exact init
  | tail _ step ih =>
    obtain ⟨pid, call, r, allowed, ran⟩ := step
    exact preserved _ _ pid call r ih allowed ran

/-- Make the calls one after another, as long as each of them is allowed. -/
def runCalls (part : Partition) (ok : Sys → Nat → Call → Int → Bool) : List (Nat × Call) → Sys → Exec Sys
  | [], σ => return σ
  | (pid, call) :: rest, σ => do
    let (r, σ') ← exec part pid σ call
    assertThat (ok σ pid call r = true)
    runCalls part ok rest σ'

theorem runCalls_run {part : Partition} {ok : Sys → Nat → Call → Int → Prop} {test : Sys → Nat → Call → Int → Bool}
    (sound : ∀ σ pid call r, test σ pid call r = true → ok σ pid call r) {σ' : Sys} :
    ∀ calls σ, runCalls part test calls σ = .ok σ' → Run part ok σ σ' := by
  intro calls
  induction calls with
  | nil =>
    intro σ h
    rw [runCalls, pure_ok] at h
    rw [h]
  | cons first rest ih =>
    intro σ h
    obtain ⟨pid, call⟩ := first
    simp only [runCalls, bind_ok, assertThat_ok, exists_const, Prod.exists] at h
    obtain ⟨r, σ1, ran, allowed, h⟩ := h
    exact .head ⟨pid, call, r, sound _ _ _ _ allowed, ran⟩ (ih σ1 h)

end Sparrow
