import Sparrow.Kernel.Bitmap
import Sparrow.Kernel.List

/-!
# The heap

`sys_malloc` and `sys_free` of `kernel/memory.c`, with the memory as the running task sees
it. A `struct arena` takes the first 12 bytes of a run of pages: `desc`, `cnt` and `large`.
A `struct mem_block_desc` is 24 bytes: `block_size`, `blocks_per_arena` and the `struct
list` of free blocks. The page allocator below it is seen through the bitmap of virtual
pages and the number of frames the pool has left.
-/

namespace Sparrow
set_option autoImplicit false

def pgSize : Nat := 4096

def kHeapStart : Nat := 0xc0100000

def userVaddrStart : Nat := 0x8048000

/-- `btmp_bytes_len` of the bitmap of a process. -/
def userBitmapLen : Nat := (0xc0000000 - userVaddrStart) / pgSize / 8

/-- `sizeof(struct arena)`. -/
def arenaSize : Nat := 12

def descCnt : Nat := 7

/-- `sizeof(struct mem_block_desc)`. -/
def descSize : Nat := 24

/-- The heap a task works on: whether it has a page directory, and with it its pool, its
descriptors and the start of its virtual addresses. -/
structure HeapOwner where
  user : Bool
  poolSize : Nat
  descs : Nat
  vaddrStart : Nat
  deriving DecidableEq, Repr

/-- The address of descriptor `i`. -/
def HeapOwner.desc (o : HeapOwner) (i : Nat) : Nat := o.descs + descSize * i

/-- What the calls work on. `owned` records the runs of pages the heap has taken from the
page allocator and not given back. -/
structure Heap where
  mem : Mem
  vaddr : Bitmap
  frames : Nat
  owned : List (Nat × Nat)

def memset0 (m : Mem) (a size : Nat) : Mem := fun x => if a ≤ x ∧ x < a + size then 0 else m x

/-- `malloc_page`: `vaddr_get`, and a frame for each page. When the pool runs out the pages
taken so far are not given back. -/
def mallocPage (o : HeapOwner) (h : Heap) (pgCnt : Nat) : Exec (Option Nat × Heap) := do
  assertThat (0 < pgCnt ∧ pgCnt < 3840)
  match bitmapScan h.vaddr pgCnt with
  | none => return (none, h)
  | some bitIdxStart =>
    let h := { h with vaddr := bitmapSetRun h.vaddr bitIdxStart true pgCnt }
    let vaddrStart := o.vaddrStart + bitIdxStart * pgSize
    if o.user then assertThat (vaddrStart < 0xc0000000 - pgSize)
    if h.frames < pgCnt then return (none, { h with frames := 0 })
    else return (some vaddrStart, { h with frames := h.frames - pgCnt, owned := (vaddrStart, pgCnt) :: h.owned })

/-- `mfree_page`. -/
def mfreePage (o : HeapOwner) (h : Heap) (vaddr pgCnt : Nat) : Exec Heap := do
  assertThat (1 ≤ pgCnt ∧ vaddr % pgSize = 0)
  return { h with
    vaddr := bitmapSetRun h.vaddr ((vaddr - o.vaddrStart) / pgSize) false pgCnt
    frames := h.frames + pgCnt
    owned := h.owned.erase (vaddr, pgCnt) }

/-- `block_desc_init`, one turn of its loop: the memory and the block size of the next. -/
def blockDescTurn (descArray : Nat) (s : Mem × Nat) (descIdx : Nat) : Mem × Nat :=
  let desc := descArray + descSize * descIdx
  let m := store s.1 desc s.2
  let m := store m (desc + 4) ((pgSize - arenaSize) / s.2)
  (listInit m (desc + 8), s.2 * 2)

/-- `block_desc_init`. -/
def blockDescInit (m : Mem) (descArray : Nat) : Mem :=
  ((List.range descCnt).foldl (blockDescTurn descArray) (m, 16)).1

/-- `arena2block`. -/
def arena2block (m : Mem) (a idx : Nat) : Nat := a + arenaSize + idx * m (m a)

/-- `block2arena`. -/
def block2arena (b : Nat) : Nat := b / pgSize * pgSize

/-- The fields of a `struct arena`. -/
def setArena (m : Mem) (a desc cnt large : Nat) : Mem :=
  store (store (store m a desc) (a + 4) cnt) (a + 8) large

/-- One turn of the loop that cuts an arena into blocks. -/
def cutBlock (a : Nat) (m : Mem) (blockIdx : Nat) : Exec Mem := do
  let b := arena2block m a blockIdx
  let found ← elemFind m (m a + 8) b
  assertThat (found = false)
  return listAppend m (m a + 8) b

/-- A new arena for the descriptor at `desc`; false when there is no page. -/
def newArena (o : HeapOwner) (h : Heap) (desc : Nat) : Exec (Bool × Heap) := do
  match ← mallocPage o h 1 with
  | (none, h) => return (false, h)
  | (some a, h) =>
    let m := memset0 h.mem a pgSize
    let m := setArena m a desc (m (desc + 4)) 0
    let m ← (List.range (m (desc + 4))).foldlM (cutBlock a) m
    return (true, { h with mem := m })

/-- The end of `sys_malloc`: the first free block. -/
def takeBlock (h : Heap) (desc : Nat) : Nat × Heap :=
  let (b, m) := listPop h.mem (desc + 8)
  let m := memset0 m b (m desc)
  let a := block2arena b
  (b, { h with mem := store m (a + 4) ((m (a + 4) + (2 ^ 32 - 1)) % 2 ^ 32) })

/-- The descriptor `sys_malloc` chooses. -/
def descFor (o : HeapOwner) (m : Mem) (size : Nat) : Nat :=
  ((List.range descCnt).find? fun descIdx => size ≤ m (o.desc descIdx)).getD descCnt

/-- `sys_malloc`; 0 stands for `NULL`. -/
def sysMalloc (o : HeapOwner) (h : Heap) (size : Nat) : Exec (Nat × Heap) := do
  if ¬ (0 < size ∧ size < o.poolSize) then return (0, h)
  else if 1024 < size then
    let pageCnt := (size + arenaSize + (pgSize - 1)) / pgSize
    match ← mallocPage o h pageCnt with
    | (none, h) => return (0, h)
    | (some a, h) =>
      let m := memset0 h.mem a (pageCnt * pgSize)
      return (a + arenaSize, { h with mem := setArena m a 0 pageCnt 1 })
  else
    let desc := o.desc (descFor o h.mem size)
    if listEmpty h.mem (desc + 8) then
      match ← newArena o h desc with
      | (false, h) => return (0, h)
      | (true, h) => return takeBlock h desc
    else return takeBlock h desc

/-- One turn of the loop that withdraws the blocks of an arena. -/
def dropBlock (a : Nat) (m : Mem) (blockIdx : Nat) : Exec Mem := do
  let b := arena2block m a blockIdx
  let found ← elemFind m (m a + 8) b
  assertThat (found = true)
  return listRemove m b

/-- The part of `sys_free` under the lock of the pool. -/
def giveBack (o : HeapOwner) (h : Heap) (ptr : Nat) : Exec Heap := do
  let a := block2arena ptr
  assertThat (h.mem (a + 8) = 0 ∨ h.mem (a + 8) = 1)
  if h.mem a = 0 ∧ h.mem (a + 8) = 1 then mfreePage o h a (h.mem (a + 4))
  else
    let m := listAppend h.mem (h.mem a + 8) ptr
    let m := store m (a + 4) ((m (a + 4) + 1) % 2 ^ 32)
    if m (a + 4) = m (m a + 4) then
      let m ← (List.range (m (m a + 4))).foldlM (dropBlock a) m
      mfreePage o { h with mem := m } a 1
    else return { h with mem := m }

/-- `sys_free`. -/
def sysFree (o : HeapOwner) (h : Heap) (ptr : Nat) : Exec Heap := do
  assertThat (ptr ≠ 0)
  if ¬ o.user then assertThat (kHeapStart ≤ ptr)
  giveBack o h ptr

end Sparrow
