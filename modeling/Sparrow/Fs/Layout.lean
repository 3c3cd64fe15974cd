import Sparrow.Fs.Format
import Sparrow.Fs.InodeTable

/-!
# The layout of a formatted partition

`partition_format` sizes the block bitmap by iteration and writes five regions one after
another: super block, block bitmap, inode bitmap, inode table, data. `formatAndMount_ok`
gives the geometry (`Layout`), the contents of the four regions behind the super block
(`Formatted`) and the mounted state. Nothing else about formatting is used later.
-/

namespace Sparrow
set_option autoImplicit false

/-- The geometry of a partition with `n` data blocks. -/
structure Layout (part : Partition) (n : Nat) : Prop where
  blockBitmapLba : part.sb.blockBitmapLba = part.startLba + 2
  inodeBitmapLba : part.sb.inodeBitmapLba = part.sb.blockBitmapLba + part.sb.blockBitmapSects
  inodeTableLba : part.sb.inodeTableLba = part.sb.inodeBitmapLba + 1
  dataStartLba : part.sb.dataStartLba = part.sb.inodeTableLba + 608
  inodeBitmapSects : part.sb.inodeBitmapSects = 1
  rootInodeNo : part.sb.rootInodeNo = 0
  dirEntrySize : part.sb.dirEntrySize = direntSize
  sects : part.sb.blockBitmapSects = (n + 4095) / 4096
  size : part.startLba + part.secCnt = part.sb.dataStartLba + n
  onDisk : part.sb.dataStartLba ≤ maxLba
  blocks : 8 ≤ n

/-- The contents of the regions of a new file system. -/
structure Formatted (part : Partition) (n : Nat) (disk : Image) : Prop where
  blockBitmap : ∀ i, i < 512 * part.sb.blockBitmapSects →
    disk (512 * part.sb.blockBitmapLba + i) = formatBlockBitmap n i
  inodeBitmap : ∀ i, i < 512 → disk (512 * part.sb.inodeBitmapLba + i) = if i = 0 then 1#8 else 0#8
  inodeTable : ∀ i, i < 512 * 608 →
    disk (512 * part.sb.inodeTableLba + i) = formatInodeTable part.sb.dataStartLba i
  rootBlock : ∀ i, i < 512 → disk (512 * part.sb.dataStartLba + i) = dotsImage 0 0 i

section Geometry

variable {part : Partition} {n : Nat}

/-- Block addresses are far from the end of the 32-bit range. -/
theorem Layout.small (lay : Layout part n) : part.sb.dataStartLba + n < 2 ^ 31 := by
  have h1 := lay.blockBitmapLba
  have h2 := lay.inodeBitmapLba
  have h3 := lay.inodeTableLba
  have h4 := lay.dataStartLba
  have h5 := lay.sects
  have h6 := lay.onDisk
  simp only [maxLba] at h6
  omega

theorem Layout.tableFits (lay : Layout part n) : TableFits part := by
  have h1 := lay.dataStartLba
  have h2 := lay.onDisk
  have h3 := lay.size
  exact ⟨by omega, by omega⟩

/-- The bitmap has a bit for every block. -/
theorem Layout.bits (lay : Layout part n) : n ≤ 4096 * part.sb.blockBitmapSects := by
  rw [lay.sects]
  omega

end Geometry

section Sizes

/-- The sizes on which two turns of the loop agree fill the space and fit each other. -/
theorem sizeBitmap_ok {free sects n : Nat} (small : free + 4095 < 2 ^ 32) :
    ∀ fuel start, start ≤ free → sizeBitmap free fuel start = .ok (sects, n) →
      sects + n = free ∧ sects = (n + 4095) / 4096 := by
  intro fuel
  induction fuel with
  | zero => intro start _ h; exact absurd h (by simp [sizeBitmap, throw_ok])
  | succ fuel ih =>
    intro start le h
    simp only [sizeBitmap] at h
    have len : subU32 free start = free - start := subU32_of_le le (by omega)
    have next : bitmapSectsFor (subU32 free start) = (free - start + 4095) / 4096 := by
      rw [len, bitmapSectsFor, addU32_of_lt (by omega)]
    split at h
    · rename_i agree
      rw [next] at agree
      rw [pure_ok, len] at h
      cases h
      exact ⟨by omega, agree.symm⟩
    · rw [next] at h
      exact ih _ (by omega) h

/-- A partition too small for the fixed tables, or so large that the rounding overflows,
has no block bitmap at all, and formatting it is undefined. -/
theorem formatSizes_ok {secCnt sects n : Nat} (lt : secCnt < 2 ^ 32)
    (h : formatSizes secCnt = .ok (sects, n)) :
    secCnt = fixedSects + sects + n ∧ sects = (n + 4095) / 4096 := by
  simp only [formatSizes, bind_ok, defined_ok, exists_const] at h
  obtain ⟨turns, h⟩ := h
  simp only [bitmapSectsFor, addU32] at turns h
  have fixed : fixedSects = 611 := rfl
  have le : fixedSects ≤ secCnt := by
    by_contra low
    simp only [subU32] at turns
    omega
  have free : subU32 secCnt fixedSects = secCnt - fixedSects := subU32_of_le le lt
  rw [free] at turns h
  have small : secCnt - fixedSects + 4095 < 2 ^ 32 := by
    by_contra big
    omega
  obtain ⟨sum, fit⟩ := sizeBitmap_ok small _ _ (by omega) h
  exact ⟨by omega, fit⟩

end Sizes

section Format

variable {disk disk' : Image} {startLba secCnt sects n : Nat}

/-- The partition a formatted area is mounted as. -/
def formatPartition (startLba secCnt sects : Nat) : Partition := ⟨startLba, secCnt, formatSuper startLba secCnt sects⟩

theorem formatPartition_layout (lt : secCnt < 2 ^ 32) (sizes : formatSizes secCnt = .ok (sects, n)) (blocks : 8 ≤ n)
    (onDisk : startLba + 2 + sects + 1 + 608 ≤ maxLba) : Layout (formatPartition startLba secCnt sects) n := by
  obtain ⟨sum, fit⟩ := formatSizes_ok lt sizes
  refine ⟨rfl, rfl, rfl, rfl, rfl, rfl, rfl, fit, ?_, onDisk, blocks⟩
  simp only [formatPartition, formatSuper, fixedSects] at sum ⊢
  omega

/-- **`partition_format`**: what a formatted partition holds, its super block included. -/
theorem partitionFormat_ok (h : partitionFormat disk startLba secCnt = .ok disk')
    (sizes : formatSizes secCnt = .ok (sects, n)) :
    startLba + 2 + sects + 1 + 608 ≤ maxLba ∧
      (∀ i, i < 512 → disk' (512 * (startLba + 1) + i) = wordsImage (formatSuper startLba secCnt sects).word i) ∧
      Formatted (formatPartition startLba secCnt sects) n disk' := by
  simp only [partitionFormat, sizes, ok_bind, bind_ok, defined_ok, ideWrite_ok, exists_const] at h
  obtain ⟨_, ⟨-, rfl⟩, -, _, ⟨-, rfl⟩, _, ⟨-, rfl⟩, _, ⟨-, rfl⟩, fits, rfl⟩ := h
  refine ⟨fits.1, ?_, ?_, ?_, ?_, ?_⟩
  all_goals
    intro i hi
    simp only [formatPartition, formatSuper] at hi ⊢
  · rw [splice_out (by omega), splice_out (by omega), splice_out (by omega), splice_out (by omega),
      splice_at (by omega)]
  · rw [splice_out (by omega), splice_out (by omega), splice_out (by omega), splice_at (by omega)]
  · rw [splice_out (by omega), splice_out (by omega), splice_at (by omega)]
  · rw [splice_out (by omega), splice_at (by omega)]
  · rw [splice_at (by omega)]

/-- The fields of a super block are its words. -/
theorem decodeSuper_eq {m : Image} {sb : SuperBlock} (same : ∀ j, j < 13 → word32 m (4 * j) = sb.word j) :
    decodeSuper m = sb := by
  have h0 := same 0 (by omega); have h1 := same 1 (by omega); have h2 := same 2 (by omega)
  have h3 := same 3 (by omega); have h4 := same 4 (by omega); have h5 := same 5 (by omega)
  have h6 := same 6 (by omega); have h7 := same 7 (by omega); have h8 := same 8 (by omega)
  have h9 := same 9 (by omega); have h10 := same 10 (by omega); have h11 := same 11 (by omega)
  have h12 := same 12 (by omega)
  simp only [Nat.reduceMul] at h0 h1 h2 h3 h4 h5 h6 h7 h8 h9 h10 h11 h12
  simp only [decodeSuper, h0, h1, h2, h3, h4, h5, h6, h7, h8, h9, h10, h11, h12]
  rfl

/-- Every field of the super block written is a 32-bit word. -/
theorem formatSuper_word_lt (lt : secCnt < 2 ^ 32) (onDisk : startLba + 2 + sects + 1 + 608 ≤ maxLba) (j : Nat) :
    (formatSuper startLba secCnt sects).word j < 2 ^ 32 := by
  have big : maxLba < 2 ^ 32 := by decide
  have all : ∀ x ∈ [0x19590318, secCnt, maxFilesPerPart, startLba, startLba + 2, sects, startLba + 2 + sects, 1,
      startLba + 2 + sects + 1, 608, startLba + 2 + sects + 1 + 608, 0, direntSize], x < 2 ^ 32 := by
    simp only [List.mem_cons, List.not_mem_nil, or_false, maxFilesPerPart, direntSize]
    rintro x (rfl | rfl | rfl | rfl | rfl | rfl | rfl | rfl | rfl | rfl | rfl | rfl | rfl) <;> omega
  simp only [SuperBlock.word, formatSuper, List.getD_eq_getElem?_getD]
  cases e : ([0x19590318, secCnt, maxFilesPerPart, startLba, startLba + 2, sects, startLba + 2 + sects, 1,
      startLba + 2 + sects + 1, 608, startLba + 2 + sects + 1 + 608, 0, direntSize])[j]? with
  | none => simp
  | some x => exact all x (List.mem_of_getElem? e)

/-- The mounted file system before its root directory is opened. -/
def mountedFs (part : Partition) (disk : Image) : Fs where
  disk := disk
  blockBitmap := ⟨part.sb.blockBitmapSects * 512, shifted disk (512 * part.sb.blockBitmapLba)⟩
  inodeBitmap := ⟨part.sb.inodeBitmapSects * 512, shifted disk (512 * part.sb.inodeBitmapLba)⟩
  inodes := fun _ => inodeInit 0
  pool := fun _ => none
  nextAddr := 0
  openInodes := []
  rootDir := 0
  fileTable := fun _ => File.empty
  mallocs := []

/-- The super block read from a formatted partition is the one written. -/
theorem decodeSuper_formatted (lt : secCnt < 2 ^ 32) (onDisk : startLba + 2 + sects + 1 + 608 ≤ maxLba)
    (super : ∀ i, i < 512 → disk (512 * (startLba + 1) + i) = wordsImage (formatSuper startLba secCnt sects).word i) :
    decodeSuper (shifted disk (512 * (startLba + 1))) = formatSuper startLba secCnt sects := by
  apply decodeSuper_eq
  intro j hj
  rw [← Nat.mod_eq_of_lt (formatSuper_word_lt lt onDisk j), ← word32_wordsImage]
  apply word32_congr
  intro i hi
  exact super _ (by omega)

/-- **`mount_partition`** after `partition_format` finds the partition that was laid out. -/
theorem mountPartition_ok {part : Partition} {s : Fs} (lt : secCnt < 2 ^ 32)
    (onDisk : startLba + 2 + sects + 1 + 608 ≤ maxLba)
    (super : ∀ i, i < 512 → disk (512 * (startLba + 1) + i) = wordsImage (formatSuper startLba secCnt sects).word i)
    (h : mountPartition disk startLba secCnt = .ok (part, s)) :
    part = formatPartition startLba secCnt sects ∧ s = mountedFs part disk := by
  simp only [mountPartition, bind_ok, ideRead_ok, pure_ok] at h
  obtain ⟨buf, ⟨-, rfl⟩, _, ⟨-, rfl⟩, _, ⟨-, rfl⟩, h⟩ := h
  rw [decodeSuper_formatted lt onDisk super] at h
  cases h
  exact ⟨rfl, rfl⟩

/-- Formatting returns exactly if the data area starts on the disk and the padding of the
bitmap stays in the buffer. -/
theorem partitionFormat_returns_iff (sizes : formatSizes secCnt = .ok (sects, n)) (pos : 0 < sects) :
    (∃ disk', partitionFormat disk startLba secCnt = .ok disk') ↔
      startLba + 2 + sects + 1 + 608 ≤ maxLba ∧
        n / 8 + (512 - n / 8 % 512) ≤ (if 608 ≤ sects then sects else 608) * 512 := by
  constructor
  · rintro ⟨disk', ran⟩
    refine ⟨(partitionFormat_ok ran sizes).1, ?_⟩
    simp only [partitionFormat, sizes, ok_bind, bind_ok, defined_ok, exists_const] at ran
    obtain ⟨_, -, room, -⟩ := ran
    exact room
  · rintro ⟨onDisk, room⟩
    have ok1 : TransferOk (startLba + 1) 1 := transferOk_of_le (by omega) (by omega)
    have ok2 : TransferOk (formatSuper startLba secCnt sects).blockBitmapLba sects :=
      transferOk_of_le pos (by simp only [formatSuper]; omega)
    have ok3 : TransferOk (formatSuper startLba secCnt sects).inodeBitmapLba 1 :=
      transferOk_of_le (by omega) (by simp only [formatSuper]; omega)
    have ok4 : TransferOk (formatSuper startLba secCnt sects).inodeTableLba 608 :=
      transferOk_of_le (by omega) (by simp only [formatSuper]; omega)
    have ok5 : TransferOk (formatSuper startLba secCnt sects).dataStartLba 1 :=
      transferOk_of_le (by omega) (by simp only [formatSuper]; omega)
    simp only [partitionFormat, sizes, ok_bind, defined_of room, ideWrite_of ok1, ideWrite_of ok2, ideWrite_of ok3,
      ideWrite_of ok4, ideWrite_of ok5]
    exact ⟨_, rfl⟩

/-- Below 608 sectors the padding of the bitmap cannot overrun the buffer. -/
theorem partitionFormat_returns (startLba : Nat) (disk : Image) (lt : secCnt < 2 ^ 32) (sizes : formatSizes secCnt = .ok (sects, n))
    (few : 0 < sects ∧ sects < 608) (onDisk : startLba + 2 + sects + 1 + 608 ≤ maxLba) :
    ∃ disk', partitionFormat disk startLba secCnt = .ok disk' := by
  obtain ⟨-, fit⟩ := formatSizes_ok lt sizes
  refine (partitionFormat_returns_iff sizes few.1).2 ⟨onDisk, ?_⟩
  rw [if_neg (by omega)]
  omega

/-- So does mounting what was formatted. -/
theorem mountPartition_returns (lt : secCnt < 2 ^ 32) (pos : 0 < sects)
    (onDisk : startLba + 2 + sects + 1 + 608 ≤ maxLba)
    (super : ∀ i, i < 512 → disk (512 * (startLba + 1) + i) = wordsImage (formatSuper startLba secCnt sects).word i) :
    ∃ part s, mountPartition disk startLba secCnt = .ok (part, s) := by
  have ok1 : TransferOk (startLba + 1) 1 := transferOk_of_le (by omega) (by omega)
  have ok2 : TransferOk (formatSuper startLba secCnt sects).blockBitmapLba
      (formatSuper startLba secCnt sects).blockBitmapSects :=
    transferOk_of_le pos (by simp only [formatSuper]; omega)
  have ok3 : TransferOk (formatSuper startLba secCnt sects).inodeBitmapLba
      (formatSuper startLba secCnt sects).inodeBitmapSects :=
    transferOk_of_le (by simp only [formatSuper]; omega) (by simp only [formatSuper]; omega)
  simp only [mountPartition, ideRead_of ok1, ok_bind, decodeSuper_formatted lt onDisk super, ideRead_of ok2, ideRead_of ok3]
  exact ⟨_, _, rfl⟩

end Format

section InitialBitmap

/-- `clearLow` clears the low bits of a byte. -/
theorem clearLow_getLsbD (byte : Byte) {j : Nat} (hj : j < 8) :
    ∀ k, k ≤ 8 → (clearLow byte k).getLsbD j = (byte.getLsbD j && !decide (j < k)) := by
  intro k
  induction k with
  | zero => intro _; simp [clearLow]
  | succ k ih =>
    intro le
    rw [clearLow, BitVec.getLsbD_and, ih (by omega), BitVec.getLsbD_not, mask_getLsbD (by omega)]
    by_cases lt : j < k
    · simp [lt, show j < k + 1 by omega]
    · by_cases e : j = k
      · simp [e]
      · simp [lt, e, hj, show ¬ j < k + 1 by omega]

/-- The bits of a new block bitmap: block 0 is taken, the other blocks are free, and the
padding behind the last block is taken. -/
theorem formatBlockBitmap_set {n sects : Nat} {b : Bitmap} (blocks : 8 ≤ n) (fit : sects = (n + 4095) / 4096)
    (bytes : ∀ i, i < 512 * sects → b.bits i = formatBlockBitmap n i) {i : Nat} (hi : i < 4096 * sects) :
    b.Set i ↔ i = 0 ∨ n ≤ i := by
  have low : i % 8 < 8 := Nat.mod_lt _ (by omega)
  have ones : ∀ k, k < 8 → (0xff#8).getLsbD k = true := by decide
  rw [Bitmap.Set, bitmapScanTest_eq_getLsbD, bytes _ (by omega)]
  simp only [formatBlockBitmap]
  rcases Nat.lt_trichotomy (i / 8) (n / 8) with before | at_ | after
  · -- a byte of valid bits only
    rw [if_neg (by omega), fill_out (by omega)]
    by_cases first : i / 8 = 0
    · have bit : ∀ k, k < 8 → ((1#8).getLsbD k = true ↔ k = 0) := by decide
      rw [if_pos first, bit _ low]
      omega
    · rw [if_neg first]
      simp only [BitVec.getLsbD_zero, Bool.false_eq_true, false_iff]
      omega
  · -- the byte with the last valid bits
    rw [if_pos at_, fill_in (by omega) (by omega), clearLow_getLsbD _ low _ (by omega), ones _ low]
    simp only [Bool.true_and, Bool.not_eq_true', decide_eq_false_iff_not]
    omega
  · rw [if_neg (by omega), fill_in (by omega) (by omega), ones _ low]
    simp only [true_iff]
    omega

end InitialBitmap


end Sparrow
