import Sparrow.Kernel.Heap

/-!
# Pages and frames

The page allocator of `kernel/memory.c`: two pools of frames, the bitmaps of virtual pages
and two-level page tables. A page table is a frame, and its entries are kept by that
frame; the directory entries from 768 on are the same in every page directory and were set
by the loader. A task is `none` for a kernel thread and `some p` for a process with a page
directory of its own.
-/

namespace Sparrow.Paging
set_option autoImplicit false

/-- `enum pool_flags`. -/
inductive PoolFlags where
  | kernel
  | user
  deriving DecidableEq, Repr

/-- A page table entry: the frame and the P bit. -/
structure Pte where
  phy : Nat
  present : Bool
  deriving DecidableEq, Repr

structure Pool where
  poolBitmap : Bitmap
  phyAddrStart : Nat

/-- The memory manager. `starved` records that some `palloc` has returned null. -/
structure Memory where
  kernelPool : Pool
  userPool : Pool
  kernelVaddr : Bitmap
  userVaddr : Nat → Bitmap
  pde : Option Nat → Nat → Option Nat
  pte : Nat → Nat → Pte
  starved : Bool

/-- 1 MB and 256 page tables. -/
def usedMem : Nat := pgSize * 256 + 0x100000

/-- `all_free_pages`, a `uint16_t`. -/
def allFreePages (allMem : Nat) : Nat := (allMem + (2 ^ 32 - usedMem)) % 2 ^ 32 / pgSize % 2 ^ 16

def kernelFreePages (allMem : Nat) : Nat := allFreePages allMem / 2

def userFreePages (allMem : Nat) : Nat := allFreePages allMem - kernelFreePages allMem

/-- The loader put the table of directory entry `768 + k` here. -/
def kernelTable (k : Nat) : Nat := 0x101000 + k * pgSize

/-- `mem_pool_init`, over the page directory of the loader. Processes start with an empty
directory below 768 and an empty bitmap (`create_page_dir`, `create_user_vaddr_bitmap`). -/
def memPoolInit (allMem : Nat) : Memory where
  kernelPool := ⟨⟨kernelFreePages allMem / 8, fun _ => 0#8⟩, usedMem⟩
  userPool := ⟨⟨userFreePages allMem / 8, fun _ => 0#8⟩, usedMem + kernelFreePages allMem * pgSize⟩
  kernelVaddr := ⟨kernelFreePages allMem / 8, fun _ => 0#8⟩
  userVaddr := fun _ => ⟨userBitmapLen, fun _ => 0#8⟩
  pde := fun task pdeIdx => if task = none ∧ pdeIdx = 0 then some (kernelTable 0) else none
  pte := fun table pteIdx =>
    if table = kernelTable 0 ∧ pteIdx < 256 then ⟨pteIdx * pgSize, true⟩ else ⟨0, false⟩
  starved := false

def Memory.pool (s : Memory) : PoolFlags → Pool
  | .kernel => s.kernelPool
  | .user => s.userPool

def Memory.setPool (s : Memory) (pf : PoolFlags) (poolBitmap : Bitmap) : Memory :=
  match pf with
  | .kernel => { s with kernelPool := { s.kernelPool with poolBitmap := poolBitmap } }
  | .user => { s with userPool := { s.userPool with poolBitmap := poolBitmap } }

/-- The virtual pages a call works on: those of the kernel, or those of the running task. -/
def space (pf : PoolFlags) (cur : Option Nat) : Option Nat :=
  match pf with
  | .kernel => none
  | .user => cur

/-- `kernel_vaddr` or the `userprog_vaddr` of a process. -/
def Memory.vaddr (s : Memory) : Option Nat → Bitmap
  | none => s.kernelVaddr
  | some p => s.userVaddr p

def Memory.setVaddr (s : Memory) (sp : Option Nat) (b : Bitmap) : Memory :=
  match sp with
  | none => { s with kernelVaddr := b }
  | some p => { s with userVaddr := fun q => if q = p then b else s.userVaddr q }

/-- `vaddr_start` of the same. -/
def vaddrStart : Option Nat → Nat
  | none => kHeapStart
  | some _ => userVaddrStart

/-- The bit of an address, in 32-bit arithmetic. -/
def bitIdx (sp : Option Nat) (vaddr : Nat) : Nat := (vaddr + (2 ^ 32 - vaddrStart sp)) % 2 ^ 32 / pgSize

/-- `PDE_IDX`. -/
def pdeIdx (vaddr : Nat) : Nat := vaddr / 2 ^ 22

/-- `PTE_IDX`. -/
def pteIdx (vaddr : Nat) : Nat := vaddr / pgSize % 1024

/-- The page table that directory entry `d` of the running task points to. -/
def Memory.table (s : Memory) (cur : Option Nat) (d : Nat) : Option Nat :=
  if 768 ≤ d then some (kernelTable (d - 768)) else s.pde cur d

def Memory.setPte (s : Memory) (table i : Nat) (e : Pte) : Memory :=
  { s with pte := fun u k => if u = table ∧ k = i then e else s.pte u k }

/-- `*pte_ptr(vaddr)`; without a page table this is a page fault. -/
def Memory.readPte (s : Memory) (cur : Option Nat) (vaddr : Nat) : Exec Pte :=
  match s.table cur (pdeIdx vaddr) with
  | some table => .ok (s.pte table (pteIdx vaddr))
  | none => .error .undefined

/-- `vaddr_get`; `none` stands for null. A kernel thread has an empty `userprog_vaddr`. -/
def vaddrGet (s : Memory) (cur : Option Nat) (pf : PoolFlags) (pgCnt : Nat) : Exec (Option Nat × Memory) :=
  if pf = .user ∧ cur = none then return (none, s)
  else do
    let sp := space pf cur
    match bitmapScan (s.vaddr sp) pgCnt with
    | none => return (none, s)
    | some bitIdxStart =>
      let vaddr := vaddrStart sp + bitIdxStart * pgSize
      if pf = .user then assertThat (vaddr < 0xc0000000 - pgSize)
      return (some vaddr, s.setVaddr sp (bitmapSetRun (s.vaddr sp) bitIdxStart true pgCnt))

/-- `palloc`. -/
def palloc (s : Memory) (pf : PoolFlags) : Option Nat × Memory :=
  match bitmapScan (s.pool pf).poolBitmap 1 with
  | none => (none, { s with starved := true })
  | some bitIdx =>
    (some (bitIdx * pgSize + (s.pool pf).phyAddrStart), s.setPool pf (bitmapSet (s.pool pf).poolBitmap bitIdx true))

/-- A new page table for directory entry `d`, cleared. -/
def Memory.addTable (s : Memory) (cur : Option Nat) (d table : Nat) : Memory :=
  { s with
    pde := fun c e => if c = cur ∧ e = d then some table else s.pde c e
    pte := fun u k => if u = table then ⟨0, false⟩ else s.pte u k }

/-- `page_table_add`. The result of the inner `palloc` is not checked; null is address 0. -/
def pageTableAdd (s : Memory) (cur : Option Nat) (vaddr pagePhyaddr : Nat) : Exec Memory :=
  match s.table cur (pdeIdx vaddr) with
  | some table => do
    assertThat ((s.pte table (pteIdx vaddr)).present = false)
    return s.setPte table (pteIdx vaddr) ⟨pagePhyaddr, true⟩
  | none => do
    let (pdePhyaddr, s) := palloc s .kernel
    let table := pdePhyaddr.getD 0
    let s := s.addTable cur (pdeIdx vaddr) table
    assertThat ((s.pte table (pteIdx vaddr)).present = false)
    return s.setPte table (pteIdx vaddr) ⟨pagePhyaddr, true⟩

/-- The loop of `malloc_page`; false when a `palloc` returns null. -/
def mapPages (cur : Option Nat) (pf : PoolFlags) : Nat → Nat → Memory → Exec (Bool × Memory)
  | 0, _, s => return (true, s)
  | cnt + 1, vaddr, s =>
    match palloc s pf with
    | (none, s) => return (false, s)
    | (some pagePhyaddr, s) => do
      let s ← pageTableAdd s cur vaddr pagePhyaddr
      mapPages cur pf cnt (vaddr + pgSize) s

/-- `malloc_page`. -/
def mallocPage (s : Memory) (cur : Option Nat) (pf : PoolFlags) (pgCnt : Nat) : Exec (Option Nat × Memory) := do
  assertThat (0 < pgCnt ∧ pgCnt < 3840)
  match ← vaddrGet s cur pf pgCnt with
  | (none, s) => return (none, s)
  | (some vaddr, s) =>
    match ← mapPages cur pf pgCnt vaddr s with
    | (true, s) => return (some vaddr, s)
    | (false, s) => return (none, s)

/-- `get_a_page`: a process gets a user page, a kernel thread a kernel page. -/
def getAPage (s : Memory) (cur : Option Nat) (pf : PoolFlags) (vaddr : Nat) : Exec (Option Nat × Memory) := do
  assertThat (pf = .user ↔ cur ≠ none)
  let sp := space pf cur
  if pf = .kernel then assertThat (0 < bitIdx sp vaddr)
  let s := s.setVaddr sp (bitmapSet (s.vaddr sp) (bitIdx sp vaddr) true)
  match palloc s pf with
  | (none, s) => return (none, s)
  | (some pagePhyaddr, s) =>
    let s ← pageTableAdd s cur vaddr pagePhyaddr
    return (some vaddr, s)

/-- `pfree`: the address says which pool the frame is from. -/
def pfree (s : Memory) (pgPhyAddr : Nat) : Memory :=
  let pf := if s.userPool.phyAddrStart ≤ pgPhyAddr then .user else .kernel
  s.setPool pf (bitmapSet (s.pool pf).poolBitmap ((pgPhyAddr - (s.pool pf).phyAddrStart) / pgSize) false)

/-- `page_table_pte_remove`. -/
def pageTablePteRemove (s : Memory) (cur : Option Nat) (vaddr : Nat) : Exec Memory :=
  match s.table cur (pdeIdx vaddr) with
  | some table => .ok (s.setPte table (pteIdx vaddr) ⟨(s.pte table (pteIdx vaddr)).phy, false⟩)
  | none => .error .undefined

/-- The frame of the second assertion of `mfree_page`: one of the pool the first page is from. -/
def OfPool (s : Memory) (user : Bool) (pgPhyAddr : Nat) : Prop :=
  pgPhyAddr % pgSize = 0 ∧
    if user then s.userPool.phyAddrStart ≤ pgPhyAddr
    else s.kernelPool.phyAddrStart ≤ pgPhyAddr ∧ pgPhyAddr < s.userPool.phyAddrStart

instance (s : Memory) (user : Bool) (pgPhyAddr : Nat) : Decidable (OfPool s user pgPhyAddr) := by
  unfold OfPool
  infer_instance

/-- The loops of `mfree_page`, which differ in their assertion. -/
def unmapPages (cur : Option Nat) (user : Bool) : Nat → Nat → Memory → Exec Memory
  | 0, _, s => return s
  | cnt + 1, vaddr, s => do
    let e ← s.readPte cur vaddr
    assertThat (OfPool s user e.phy)
    let s ← pageTablePteRemove (pfree s e.phy) cur vaddr
    unmapPages cur user cnt (vaddr + pgSize) s

/-- `mfree_page`. The bitmap of a kernel thread is a null pointer. -/
def mfreePage (s : Memory) (cur : Option Nat) (pf : PoolFlags) (vaddr pgCnt : Nat) : Exec Memory := do
  assertThat (1 ≤ pgCnt ∧ vaddr % pgSize = 0)
  let e ← s.readPte cur vaddr
  assertThat (e.phy % pgSize = 0 ∧ 0x102000 ≤ e.phy)
  let s ← unmapPages cur (decide (s.userPool.phyAddrStart ≤ e.phy)) pgCnt vaddr s
  defined (pf = .user → cur ≠ none)
  let sp := space pf cur
  return s.setVaddr sp (bitmapSetRun (s.vaddr sp) (bitIdx sp vaddr) false pgCnt)

end Sparrow.Paging
