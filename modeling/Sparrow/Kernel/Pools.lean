import Sparrow.Kernel.PagingRun

/-!
# Where `mem_pool_init` puts the pools and their bitmaps

`Sparrow.Kernel.Paging` keeps the three bitmaps of the memory manager apart by construction. In the
kernel they lie one after another in the 16KB from `MEM_BITMAP_BASE` on, and the sizes of all that
`mem_pool_init` sets up come from one `uint16_t` number of pages. Here are the addresses it computes,
in 32-bit arithmetic, and what they leave apart.
-/

namespace Sparrow.Paging
set_option autoImplicit false

/-- `MEM_BITMAP_BASE`. -/
def memBitmapBase : Nat := 0xc009a000

/-- A `struct bitmap` as the kernel has it: a length and a pointer. -/
structure BitmapRange where
  btmpBytesLen : Nat
  bits : Nat
  deriving DecidableEq, Repr

/-- `struct pool` without its lock. -/
structure PoolRecord where
  poolBitmap : BitmapRange
  phyAddrStart : Nat
  poolSize : Nat
  deriving DecidableEq, Repr

/-- `kernel_pool`, `user_pool` and `kernel_vaddr`. -/
structure Pools where
  kernelPool : PoolRecord
  userPool : PoolRecord
  vaddrBitmap : BitmapRange
  vaddrStart : Nat
  deriving DecidableEq, Repr

/-- `free_mem`. -/
def freeMem (allMem : Nat) : Nat := (allMem + (2 ^ 32 - usedMem)) % 2 ^ 32

def kbmLength (allMem : Nat) : Nat := kernelFreePages allMem / 8

def ubmLength (allMem : Nat) : Nat := userFreePages allMem / 8

/-- The records `mem_pool_init` fills in. -/
def poolRecords (allMem : Nat) : Pools where
  kernelPool := ⟨⟨kbmLength allMem, memBitmapBase⟩, usedMem, kernelFreePages allMem * pgSize % 2 ^ 32⟩
  userPool := ⟨⟨ubmLength allMem, (memBitmapBase + kbmLength allMem) % 2 ^ 32⟩,
    (usedMem + kernelFreePages allMem * pgSize) % 2 ^ 32, userFreePages allMem * pgSize % 2 ^ 32⟩
  vaddrBitmap := ⟨kbmLength allMem, (memBitmapBase + kbmLength allMem + ubmLength allMem) % 2 ^ 32⟩
  vaddrStart := kHeapStart

section Pages

variable {allMem : Nat}

theorem allFreePages_eq (allMem : Nat) : allFreePages allMem = freeMem allMem / pgSize % 2 ^ 16 := rfl

theorem freeMem_eq (low : usedMem ≤ allMem) (high : allMem < 2 ^ 32) : freeMem allMem = allMem - usedMem := by
  have size : usedMem = 0x200000 := by decide
  unfold freeMem
  rw [size] at low ⊢
  omega

theorem allFreePages_lt (allMem : Nat) : allFreePages allMem < 2 ^ 16 := by
  rw [allFreePages_eq]
  omega

theorem kernelFreePages_lt (allMem : Nat) : kernelFreePages allMem < 2 ^ 15 := by
  have few := allFreePages_lt allMem
  unfold kernelFreePages
  omega

theorem userFreePages_le (allMem : Nat) : userFreePages allMem ≤ 2 ^ 15 := by
  have few := allFreePages_lt allMem
  unfold userFreePages kernelFreePages
  omega

theorem pages_sum (allMem : Nat) : kernelFreePages allMem + userFreePages allMem = allFreePages allMem := by
  unfold userFreePages kernelFreePages
  omega

/-- The pages that are counted are there. -/
theorem pages_inside (low : usedMem ≤ allMem) (high : allMem < 2 ^ 32) : usedMem + allFreePages allMem * pgSize ≤ allMem := by
  have free := freeMem_eq low high
  have le : allFreePages allMem ≤ freeMem allMem / pgSize := Nat.mod_le _ _
  have whole : freeMem allMem / pgSize * pgSize ≤ freeMem allMem := Nat.div_mul_le_self _ _
  have mul : allFreePages allMem * pgSize ≤ freeMem allMem / pgSize * pgSize := Nat.mul_le_mul_right _ le
  omega

/-- The model of the allocator starts with these lengths and addresses. -/
theorem memPoolInit_records (allMem : Nat) :
    (memPoolInit allMem).kernelPool.phyAddrStart = (poolRecords allMem).kernelPool.phyAddrStart ∧
      (memPoolInit allMem).userPool.phyAddrStart = (poolRecords allMem).userPool.phyAddrStart ∧
      (memPoolInit allMem).kernelPool.poolBitmap.btmpBytesLen = (poolRecords allMem).kernelPool.poolBitmap.btmpBytesLen ∧
      (memPoolInit allMem).userPool.poolBitmap.btmpBytesLen = (poolRecords allMem).userPool.poolBitmap.btmpBytesLen ∧
      (memPoolInit allMem).kernelVaddr.btmpBytesLen = (poolRecords allMem).vaddrBitmap.btmpBytesLen ∧
      vaddrStart none = (poolRecords allMem).vaddrStart := by
  have few := kernelFreePages_lt allMem
  refine ⟨rfl, ?_, rfl, rfl, rfl, rfl⟩
  have size : usedMem = 0x200000 := by decide
  simp only [memPoolInit, poolRecords, size, pgSize]
  omega

end Pages

/-! ## The bitmaps -/

/-- The bytes of the bitmap. -/
def BitmapRange.Covers (r : BitmapRange) (x : Nat) : Prop := r.bits ≤ x ∧ x < r.bits + r.btmpBytesLen

/-- The bitmap of this range in memory. -/
def BitmapRange.bitmap (r : BitmapRange) (mem : Image) : Bitmap := ⟨r.btmpBytesLen, shifted mem r.bits⟩

/-- The three bitmaps, named after what they describe. -/
inductive Described where
  | kernelPool
  | userPool
  | kernelVaddr
  deriving DecidableEq, Repr

def Pools.bitmap (p : Pools) : Described → BitmapRange
  | .kernelPool => p.kernelPool.poolBitmap
  | .userPool => p.userPool.poolBitmap
  | .kernelVaddr => p.vaddrBitmap

/-- A bitmap begins where the one before it ends, and they end within 16KB. -/
theorem bitmaps_consecutive (allMem : Nat) :
    (poolRecords allMem).kernelPool.poolBitmap.bits = memBitmapBase ∧
      (poolRecords allMem).userPool.poolBitmap.bits = memBitmapBase + kbmLength allMem ∧
      (poolRecords allMem).vaddrBitmap.bits = memBitmapBase + kbmLength allMem + ubmLength allMem ∧
      memBitmapBase + kbmLength allMem + ubmLength allMem + kbmLength allMem ≤ 0xc009e000 := by
  have kernel := kernelFreePages_lt allMem
  have user := userFreePages_le allMem
  refine ⟨rfl, ?_, ?_, ?_⟩ <;> simp only [poolRecords, memBitmapBase, kbmLength, ubmLength] <;> omega

theorem bitmaps_apart (allMem : Nat) {i j : Described} (ne : i ≠ j) (x : Nat) :
    ¬ (((poolRecords allMem).bitmap i).Covers x ∧ ((poolRecords allMem).bitmap j).Covers x) := by
  obtain ⟨first, second, third, -⟩ := bitmaps_consecutive allMem
  unfold BitmapRange.Covers
  cases i <;> cases j <;> first
    | exact absurd rfl ne
    | simp only [Pools.bitmap, first, second, third]
      simp only [poolRecords]
      omega

theorem bitmaps_inside (allMem : Nat) (i : Described) {x : Nat} (covers : ((poolRecords allMem).bitmap i).Covers x) :
    0xc009a000 ≤ x ∧ x < 0xc009e000 := by
  obtain ⟨first, second, third, last⟩ := bitmaps_consecutive allMem
  unfold BitmapRange.Covers at covers
  cases i <;>
    simp only [Pools.bitmap, first, second, third] at covers <;>
    simp only [poolRecords, memBitmapBase] at covers last <;>
    omega

/-- A store into one bitmap does not change another. -/
theorem bitmaps_frame (allMem : Nat) {i j : Described} (ne : i ≠ j) {mem : Image} {bit k : Nat} (byte : Byte)
    (inside : bit < 8 * ((poolRecords allMem).bitmap i).btmpBytesLen)
    (other : k < 8 * ((poolRecords allMem).bitmap j).btmpBytesLen) :
    bitmapScanTest (((poolRecords allMem).bitmap j).bitmap
        (splice mem (((poolRecords allMem).bitmap i).bits + bit / 8) 1 fun _ => byte)) k =
      bitmapScanTest (((poolRecords allMem).bitmap j).bitmap mem) k := by
  have apart := bitmaps_apart allMem ne (((poolRecords allMem).bitmap j).bits + k / 8)
  unfold BitmapRange.Covers at apart
  simp only [bitmapScanTest, BitmapRange.bitmap, shifted]
  rw [splice_out (by omega)]

/-! ## The frames -/

section Frames

variable {allMem k k' : Nat} {pf pf' : PoolFlags}

/-- A frame of a pool is a whole page of the memory that is not used yet. -/
theorem frameAt_inside (low : usedMem ≤ allMem) (high : allMem < 2 ^ 32) (lt : k < (memPoolInit allMem).poolBits pf) :
    (memPoolInit allMem).frameAt pf k % pgSize = 0 ∧ usedMem ≤ (memPoolInit allMem).frameAt pf k ∧
      (memPoolInit allMem).frameAt pf k + pgSize ≤ allMem := by
  have inside := pages_inside low high
  have sum := pages_sum allMem
  have size : usedMem = 0x200000 := by decide
  cases pf <;>
    simp only [Memory.poolBits, Memory.frameAt, Memory.pool, memPoolInit, pgSize, size] at * <;>
    omega

/-- `pfree` clears the bit a frame came from, in every state of the allocator. -/
theorem pfree_frameAt {s : Memory} (kernel : s.kernelPool.phyAddrStart = (memPoolInit allMem).kernelPool.phyAddrStart)
    (user : s.userPool.phyAddrStart = (memPoolInit allMem).userPool.phyAddrStart)
    (lt : k < (memPoolInit allMem).poolBits pf) :
    pfree s ((memPoolInit allMem).frameAt pf k) = s.setPool pf (bitmapSet (s.pool pf).poolBitmap k false) := by
  have back : (k * pgSize + (s.pool pf).phyAddrStart - (s.pool pf).phyAddrStart) / pgSize = k := by
    rw [Nat.add_sub_cancel, Nat.mul_div_cancel _ (by decide)]
  cases pf with
  | kernel =>
    have below := ((memPoolInit_layout allMem).kernel_frame lt).2
    have same : (memPoolInit allMem).frameAt .kernel k = k * pgSize + (s.pool .kernel).phyAddrStart := by
      simp only [Memory.frameAt, Memory.pool, kernel]
    unfold pfree
    rw [user, if_neg (by omega), same]
    simp only [back]
  | user =>
    have same : (memPoolInit allMem).frameAt .user k = k * pgSize + (s.pool .user).phyAddrStart := by
      simp only [Memory.frameAt, Memory.pool, user]
    have above : s.userPool.phyAddrStart ≤ (memPoolInit allMem).frameAt .user k := by
      rw [same]
      exact Nat.le_add_left _ _
    unfold pfree
    rw [if_pos above, same]
    simp only [back]

/-- The kernel heap has its page tables among those of the loader. -/
theorem kernelVaddr_mapped {x : Nat} (low : (poolRecords allMem).vaddrStart ≤ x)
    (high : x < (poolRecords allMem).vaddrStart + 8 * (poolRecords allMem).vaddrBitmap.btmpBytesLen * pgSize) :
    768 ≤ pdeIdx x ∧ pdeIdx x ≤ 1022 := by
  have few := kernelFreePages_lt allMem
  simp only [poolRecords, kbmLength, kHeapStart, pgSize, pdeIdx] at *
  omega

/-- **The memory pools never overlap.** -/
theorem memPoolInit_apart (low : 0x201000 ≤ allMem) (high : allMem < 2 ^ 32) :
    (∀ pf k, k < (memPoolInit allMem).poolBits pf → (memPoolInit allMem).frameAt pf k % pgSize = 0 ∧
      0x200000 ≤ (memPoolInit allMem).frameAt pf k ∧ (memPoolInit allMem).frameAt pf k + pgSize ≤ allMem) ∧
    (∀ pf pf' k k', k < (memPoolInit allMem).poolBits pf → k' < (memPoolInit allMem).poolBits pf' →
      (memPoolInit allMem).frameAt pf k = (memPoolInit allMem).frameAt pf' k' → pf = pf' ∧ k = k') ∧
    (∀ s pf k, s.kernelPool.phyAddrStart = (memPoolInit allMem).kernelPool.phyAddrStart →
      s.userPool.phyAddrStart = (memPoolInit allMem).userPool.phyAddrStart → k < (memPoolInit allMem).poolBits pf →
      pfree s ((memPoolInit allMem).frameAt pf k) = s.setPool pf (bitmapSet (s.pool pf).poolBitmap k false)) ∧
    (∀ i j x, i ≠ j → ¬ (((poolRecords allMem).bitmap i).Covers x ∧ ((poolRecords allMem).bitmap j).Covers x)) ∧
    (∀ i x, ((poolRecords allMem).bitmap i).Covers x → 0xc009a000 ≤ x ∧ x < 0xc009e000) ∧
    ∀ x, (poolRecords allMem).vaddrStart ≤ x →
      x < (poolRecords allMem).vaddrStart + 8 * (poolRecords allMem).vaddrBitmap.btmpBytesLen * pgSize →
      768 ≤ pdeIdx x ∧ pdeIdx x ≤ 1022 := by
  have size : usedMem = 0x200000 := by decide
  refine ⟨fun pf k lt => ?_, fun pf pf' k k' lt lt' same => ?_, fun s pf k kernel user lt => ?_, fun i j x ne => ?_,
    fun i x covers => ?_, fun x above below => ?_⟩
  · rw [← size]
    exact frameAt_inside (by omega) high lt
  · exact (memPoolInit_layout allMem).frameAt_inj lt lt' same
  · exact pfree_frameAt kernel user lt
  · exact bitmaps_apart allMem ne x
  · exact bitmaps_inside allMem i covers
  · exact kernelVaddr_mapped above below

/-- With 32MB the pools have 3840 pages each and their bitmaps 480 bytes. -/
theorem memPoolInit_apart_32MB : (memPoolInit 0x2000000).poolBits .kernel = 3840 ∧
    ∀ k k', k < 3840 → k' < (memPoolInit 0x2000000).poolBits .user →
      (memPoolInit 0x2000000).frameAt .kernel k ≠ (memPoolInit 0x2000000).frameAt .user k' := by
  obtain ⟨-, unique, -⟩ := @memPoolInit_apart 0x2000000 (by decide) (by decide)
  have bits : (memPoolInit 0x2000000).poolBits .kernel = 3840 := by decide
  refine ⟨bits, fun k k' lt lt' same => ?_⟩
  have both := unique .kernel .user k k' (by rw [bits]; exact lt) lt' same
  cases both.1

end Frames

/-! ## How much of the memory is pooled -/

section Pooled

variable {allMem : Nat}

/-- The pages the two pools manage. -/
def pooledPages (allMem : Nat) : Nat := (memPoolInit allMem).poolBits .kernel + (memPoolInit allMem).poolBits .user

/-- The two divisions by 8 lose 14 pages at most, of those that `all_free_pages` counts. -/
theorem pooledPages_bounds (allMem : Nat) :
    allFreePages allMem ≤ pooledPages allMem + 14 ∧ pooledPages allMem ≤ allFreePages allMem := by
  have sum := pages_sum allMem
  simp only [pooledPages, Memory.poolBits, Memory.pool, memPoolInit]
  omega

/-- **Which memory sizes are pooled**: from 258MB on the number of free pages does not fit in the
`uint16_t` any more. -/
theorem pooled_iff (low : 0x201000 ≤ allMem) (high : allMem ≤ 0x20000000) :
    freeMem allMem / 4096 ≤ pooledPages allMem + 16 ↔ allMem < 0x10200000 := by
  obtain ⟨most, counted⟩ := pooledPages_bounds allMem
  have size : usedMem = 0x200000 := by decide
  have free : freeMem allMem = allMem - usedMem := freeMem_eq (by omega) (by omega)
  have pages := allFreePages_eq allMem
  rw [size] at free
  rw [free] at pages ⊢
  simp only [pgSize] at pages
  constructor
  · intro all
    omega
  · intro small
    omega

/-- With 128MB everything is pooled. -/
theorem pooled_128MB : freeMem 0x8000000 / 4096 ≤ pooledPages 0x8000000 + 16 :=
  (pooled_iff (by decide) (by decide)).2 (by decide)

/-- Of the 130560 free pages of a machine with 512MB 65536 are lost. -/
theorem not_pooled_512MB : ¬ ∀ allMem, 0x201000 ≤ allMem → allMem ≤ 0x20000000 →
    freeMem allMem / 4096 ≤ pooledPages allMem + 16 := by
  intro all
  have claim := all 0x20000000 (by decide) (by decide)
  have free : freeMem 0x20000000 / 4096 = 130560 := by decide
  have pooled : pooledPages 0x20000000 = 65024 := by decide
  omega

end Pooled

end Sparrow.Paging
