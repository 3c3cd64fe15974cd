import Mathlib.Algebra.Group.Int.Defs
import Sparrow.Kernel.Paging
import Sparrow.Fs.FileRead
import Sparrow.Lib.Traced

/-!
# Loading a program

`userprog/exec.c`. The headers come from the file as they are: `load` checks a few fields of
the ELF header and nothing of the program headers. What loading does to the address space of
the process is the trace of the run: the bits `get_a_page` sets in the virtual bitmap, the
pages it maps and the bytes `file_read` is to store. The variables of `load` on the kernel
stack are left out of it.
-/

namespace Sparrow.Load
set_option autoImplicit false

open Paging

/-- The opened file as its readers see it. -/
structure Content where
  bytes : Image
  iSize : Nat

/-- An effect on the address space of the process. -/
inductive Access where
  /-- `bitmap_set` of this bit of a bitmap of `len` bytes. -/
  | bit (idx len : Nat)
  /-- A page mapped. -/
  | page (vaddr : Nat)
  /-- `n` bytes to be stored from `vaddr` on. -/
  | bytes (vaddr n : Nat)
  deriving DecidableEq, Repr

/-- A `uint32_t` read as an `int32_t`. -/
def toInt32 (x : Nat) : Int := if x < 2 ^ 31 then x else (x : Int) - 2 ^ 32

/-- `sys_lseek(fd, offset, SEEK_SET)`: the new `fd_pos`. The loader ignores its result, so a
refused offset leaves the position where it was. -/
def sysLseek (f : Content) (fdPos offset : Nat) : Nat :=
  let newPos := toInt32 offset
  if newPos < 0 ∨ toInt32 f.iSize - 1 < newPos then fdPos else newPos.toNat

/-- Which of the two `sys_malloc` calls of a read return memory. -/
structure Buffers where
  ioBuf : Bool
  allBlocks : Bool

/-- The `size` of `file_read`. -/
def readSize (f : Content) (fdPos count : Nat) : Nat :=
  if f.iSize < addU32 fdPos count then subU32 f.iSize fdPos else count

/-- `file_read` up to its loop; `none` stands for -1. -/
def fileReadSize (f : Content) (b : Buffers) (fdPos count : Nat) : Exec (Option Nat) :=
  if f.iSize < addU32 fdPos count ∧ readSize f fdPos count = 0 then return none
  else if b.allBlocks = false then return none
  else do
    defined (b.ioBuf = true)
    assertThat (fdPos / 512 < 139 ∧ addU32 fdPos (readSize f fdPos count) / 512 < 139)
    return some (readSize f fdPos count)

/-- The bytes stored at `buf`; `none` is a variable of the caller. -/
def store (buf : Option Nat) (n : Nat) : Traced Access Unit :=
  match buf with
  | none => pure ()
  | some vaddr => .emit (.bytes vaddr n)

/-- `file_read`: the result and the new `fd_pos`. The loop ends early where it leaves the 140
block addresses. -/
def fileRead (f : Content) (b : Buffers) (fdPos : Nat) (buf : Option Nat) (count : Nat) :
    Traced Access (Option Nat × Nat) := do
  match ← Traced.lift (fileReadSize f b fdPos count) with
  | none => return (none, fdPos)
  | some size =>
    store buf size
    Traced.lift (defined (size = 0 ∨ fdPos + size ≤ 512 * 140))
    return (some size, fdPos + size)

/-- The content of a well-formed file is what `file_read` finds in its blocks. -/
theorem fileRead_refines {part : Partition} {n : Nat} {v : Vnode} (wf : FileWf part n v) (written : v.inode.sec 0 ≠ 0)
    (small : v.inode.iSize < 139 * 512) {fdPos count : Nat} (le : fdPos ≤ v.inode.iSize) (noWrap : fdPos + count < 2 ^ 32)
    (dst : Image) :
    ∃ r dst' fdPos', readFile v.disk v.inode fdPos dst count = .ok (r, dst', fdPos') ∧
      (fileRead ⟨byteAt v, v.inode.iSize⟩ ⟨true, true⟩ fdPos none count).result = .ok (r, fdPos') ∧
      ∀ size, r = some size → ∀ i, i < size → dst' i = byteAt v (fdPos + i) := by
  have sum : addU32 fdPos count = fdPos + count := addU32_of_lt noWrap
  have diff : subU32 v.inode.iSize fdPos = v.inode.iSize - fdPos := subU32_of_le le (by omega)
  have isSize : readSize ⟨byteAt v, v.inode.iSize⟩ fdPos count = min (fdPos + count) v.inode.iSize - fdPos := by
    simp only [readSize, sum, diff]
    split <;> omega
  obtain ⟨end_, some, ran⟩ | ⟨size, dst', notEnd, size_, ran, bytes⟩ := readFile_spec wf dst written (fun _ => by omega) le noWrap
  · refine ⟨none, dst, fdPos, ran, ?_, nofun⟩
    simp only [fileRead, fileReadSize, sum, isSize]
    rw [if_pos (by omega)]
    rfl
  · refine ⟨_, dst', _, ran, ?_, fun k is => ?_⟩
    · have sum' : addU32 fdPos size = fdPos + size := addU32_of_lt (by omega)
      simp only [fileRead, fileReadSize, sum, isSize, ← size_, sum']
      rw [if_neg (by omega), if_neg (by simp), defined_of trivial, ok_bind,
        assertThat_of (show fdPos / 512 < 139 ∧ (fdPos + size) / 512 < 139 by omega), ok_bind]
      simp only [pure, Except.pure, Traced.lift_ok_bind, store]
      rw [defined_of (show size = 0 ∨ fdPos + size ≤ 512 * 140 by omega)]
      rfl
    · cases is
      exact bytes

/-- `sys_read` of the file. -/
def sysRead (f : Content) (b : Buffers) (fdPos : Nat) (buf : Option Nat) (count : Nat) :
    Traced Access (Option Nat × Nat) := do
  Traced.lift (assertThat (buf ≠ some 0))
  fileRead f b fdPos buf count

/-- What surrounds a run: the outcome of the allocations of each read, and what happens to
memory while the read allocates and sleeps. -/
structure World where
  buffers : Nat → Buffers
  others : Nat → Memory → Memory

/-- The P bits of the directory entry and of the page table entry. The last entry of a
directory is the directory itself. -/
def present (s : Memory) (p vaddr : Nat) : Bool :=
  if pdeIdx vaddr = 1023 then (s.table (some p) (pteIdx vaddr)).isSome
  else match s.table (some p) (pdeIdx vaddr) with
    | none => false
    | some table => (s.pte table (pteIdx vaddr)).present

/-- One turn of the loop of `segment_load`; `none` when there is no memory. -/
def loadPage (p : Nat) (s : Memory) (vaddr : Nat) : Traced Access (Option Memory) :=
  if present s p vaddr then pure (some s)
  else do
    Traced.emit (.bit (bitIdx (some p) vaddr) (s.userVaddr p).btmpBytesLen)
    match ← Traced.lift (getAPage s (some p) .user vaddr) with
    | (none, _) => return none
    | (some page, s) =>
      Traced.emit (.page page)
      return some s

/-- The loop of `segment_load`. -/
def loadPages (p : Nat) : List Nat → Memory → Traced Access (Option Memory)
  | [], s => pure (some s)
  | vaddr :: rest, s => do
    match ← loadPage p s vaddr with
    | none => return none
    | some s => loadPages p rest s

/-- The fields of `struct Elf32_Phdr` that are used. -/
structure Elf32Phdr where
  pType : Nat
  pOffset : Nat
  pVaddr : Nat
  pFilesz : Nat

def progHeader (m : Image) : Elf32Phdr := ⟨word32 m 0, word32 m 4, word32 m 8, word32 m 16⟩

def ptLoad : Nat := 1

/-- `occupy_pages`, in 32-bit arithmetic. -/
def occupyPages (h : Elf32Phdr) : Nat :=
  let sizeInFirstPage := pgSize - h.pVaddr % pgSize
  if sizeInFirstPage < h.pFilesz then addU32 (h.pFilesz - sizeInFirstPage) (pgSize - 1) / pgSize + 1 else 1

/-- The values of `vaddr_page`. -/
def segmentPages (h : Elf32Phdr) : List Nat :=
  (List.range (occupyPages h)).map fun i => addU32 (h.pVaddr - h.pVaddr % pgSize) (i * pgSize)

/-- What the loop of `load` carries: memory, `fd_pos` and the number of reads made. -/
structure Progress where
  memory : Memory
  fdPos : Nat
  reads : Nat

/-- `sys_read`, and what happened meanwhile. -/
def readNext (f : Content) (w : World) (st : Progress) (fdPos : Nat) (buf : Option Nat) (count : Nat) :
    Traced Access (Option Nat × Progress) := do
  let (r, fdPos) ← sysRead f (w.buffers st.reads) fdPos buf count
  return (r, ⟨w.others st.reads st.memory, fdPos, st.reads + 1⟩)

/-- `segment_load`; `none` stands for false. -/
def segmentLoad (f : Content) (w : World) (p : Nat) (st : Progress) (h : Elf32Phdr) : Traced Access (Option Progress) := do
  match ← loadPages p (segmentPages h) st.memory with
  | none => return none
  | some s =>
    let (_, st) ← readNext f w { st with memory := s } (sysLseek f st.fdPos h.pOffset) (some h.pVaddr) h.pFilesz
    return some st

/-- The loop over the program headers; false when `load` returns -1. -/
def progHeaders (f : Content) (w : World) (p : Nat) : Nat → Nat → Progress → Traced Access Bool
  | 0, _, _ => return true
  | n + 1, off, st => do
    let fdPos := sysLseek f st.fdPos off
    let (r, st) ← readNext f w st fdPos none 32
    if r ≠ some 32 then return false
    else
      let h := progHeader (shifted f.bytes fdPos)
      if h.pType = ptLoad then
        match ← segmentLoad f w p st h with
        | none => return false
        | some st => progHeaders f w p n (addU32 off 32) st
      else progHeaders f w p n (addU32 off 32) st

def half16 (m : Image) (a : Nat) : Nat := (m a).toNat + 256 * (m (a + 1)).toNat

/-- The checks on the ELF header: `e_ident`, `e_type`, `e_machine`, `e_version`, `e_phnum` and
`e_phentsize`. -/
def Accepted (m : Image) : Prop :=
  (List.range 7).map m = [0x7f#8, 0x45#8, 0x4c#8, 0x46#8, 1#8, 1#8, 1#8] ∧ half16 m 16 = 2 ∧ half16 m 18 = 3 ∧
    word32 m 20 = 1 ∧ half16 m 44 ≤ 1024 ∧ half16 m 42 = 32

instance (m : Image) : Decidable (Accepted m) := by
  unfold Accepted
  infer_instance

/-- `load` of an opened file: `e_entry` or -1. -/
def load (f : Content) (w : World) (p : Nat) (s : Memory) : Traced Access Int := do
  let (r, st) ← readNext f w ⟨s, 0, 0⟩ 0 none 52
  if r ≠ some 52 then return -1
  else if ¬ Accepted f.bytes then return -1
  else
    let ok ← progHeaders f w p (half16 f.bytes 44) (word32 f.bytes 28) st
    return if ok then toInt32 (word32 f.bytes 24) else -1

/-- `sys_execv` up to the jump; `none` is the result -1, else the new `eip`. The file is
`none` when it could not be opened. -/
def sysExecv (f : Option Content) (w : World) (p : Nat) (s : Memory) : Traced Access (Option Int) :=
  match f with
  | none => return none
  | some f => do
    let entryPoint ← load f w p s
    return if entryPoint = -1 then none else some entryPoint

end Sparrow.Load
