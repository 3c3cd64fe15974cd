import Sparrow.Fs.FullDisk

/-!
# The limits of a file

`file_write` refuses what would make a file longer than 71680 bytes, by a comparison of 32-bit
sums, and counts the blocks it needs as `size / 512 + 1`; `file_read` asserts that both ends of
what it reads lie in the first 139 blocks. `writeFile_returns` follows a write with blocks
enough to its end. `fileLimits_iff` says for which sizes, positions and counts the two calls do
what the limit promises.
-/

namespace Sparrow
set_option autoImplicit false

/-- The partition ends where the disk ends. -/
def OnDrive (part : Partition) : Prop := part.startLba + part.secCnt ≤ maxLba + 1

/-- The blocks `file_write` asks for: those the file will have beyond those it has, and the table. -/
def blocksWanted (v : Vnode) (count : Nat) : Nat :=
  ((v.inode.iSize + count) / 512 + 1 - fileBlocks v.inode) +
    if 12 < (v.inode.iSize + count) / 512 + 1 ∧ v.inode.sec 12 = 0 then 1 else 0

/-- There is a free block for each of them. -/
def Enough (n : Nat) (v : Vnode) (count : Nat) : Prop := blocksWanted v count ≤ v.blockBitmap.clear n

section Returns

variable {part : Partition} {n has will : Nat} {v : Vnode} {b b' : Bitmap} {r : Option Nat}

/-- A free block is found while there is one. -/
theorem blockBitmapAlloc_some (lay : Layout part n) (map : BlockMap part n b) (any : 0 < b.clear n) :
    ∃ i, 0 < i ∧ i < n ∧ ¬ b.Set i ∧ blockBitmapAlloc part.sb b = (some (part.sb.dataStartLba + i), bitmapSet b i true) ∧
      (bitmapSet b i true).clear n + 1 = b.clear n := by
  generalize alloc : blockBitmapAlloc part.sb b = result
  obtain ⟨r, b'⟩ := result
  obtain ⟨-, -, full⟩ | ⟨i, pos, inside, clear, -, rfl, rfl⟩ := blockBitmapAlloc_cases lay map alloc
  · obtain ⟨j, lt, free⟩ := Bitmap.clear_pos.1 any
    exact absurd (full j lt) free
  · have count := Bitmap.clear_set (n := n) clear
    rw [if_pos inside] at count
    exact ⟨i, pos, inside, clear, rfl, count⟩

theorem syncBlock_returns (lay : Layout part n) (disk : Image) (b : Bitmap) {i : Nat} (inside : i < n) :
    ∃ disk', syncBlock part disk b (part.sb.dataStartLba + i) = .ok disk' := by
  have sector := lay.bitmapSector inside
  have h1 := lay.inodeTableLba
  have h2 := lay.dataStartLba
  have h3 := lay.onDisk
  have transfer : TransferOk (part.sb.blockBitmapLba + i / 4096) 1 := transferOk_one.2 (by omega)
  rw [syncBlock, bitmapSync, lay.index inside, ideWrite_of transfer]
  exact ⟨_, rfl⟩

/-- A data block lies on the drive. -/
theorem OnDrive.block (drive : OnDrive part) (lay : Layout part n) {i : Nat} (inside : i < n) :
    part.sb.dataStartLba + i ≤ maxLba := by
  have size := lay.size
  rw [OnDrive] at drive
  omega

/-- The loops that allocate blocks get all they ask for while there are enough. -/
theorem growBlocks_returns (lay : Layout part n) : ∀ (m a : Nat) (all : Nat → Nat) {v : Vnode},
    BlockMap part n v.blockBitmap → m ≤ v.blockBitmap.clear n → (∀ k, a ≤ k → k < a + m → k < 12 → v.inode.sec k = 0) →
    ∃ g, growBlocks part (List.range' a m) v all = .ok g ∧ g.ok = true := by
  intro m
  induction m with
  | zero =>
    intro a all v _ _ _
    exact ⟨⟨true, v, all⟩, rfl, rfl⟩
  | succ m ih =>
    intro a all v map enough empty
    obtain ⟨i, pos, inside, -, alloc, left⟩ := blockBitmapAlloc_some lay map (by omega)
    obtain ⟨disk, written⟩ := syncBlock_returns lay v.disk (bitmapSet v.blockBitmap i true) inside
    simp only [List.range'_succ, growBlocks, alloc]
    by_cases direct : a < 12
    · rw [if_pos direct, assertThat_of (empty a (by omega) (by omega) direct), ok_bind]
      simp only [pure, Except.pure, ok_bind, written]
      refine ih (a + 1) _ (map.set pos inside true) (by simp only; omega) fun k ge lt low => ?_
      rw [Inode.sec_setSec _ (by omega), if_neg (by omega)]
      exact empty k (by omega) (by omega) low
    · rw [if_neg direct]
      simp only [pure, Except.pure, ok_bind, written]
      exact ih (a + 1) _ (map.set pos inside true) (by simp only; omega) fun k ge lt low => by omega

/-- **The blocks of a growing file** are there when there are enough. -/
theorem growFile_returns (lay : Layout part n) (drive : OnDrive part) (map : BlockMap part n v.blockBitmap)
    (filled : Filled v.disk v.inode has) (pos : 0 < has) (more : has < will) (most : will ≤ 140)
    (enough : will - has + (if 12 < will ∧ v.inode.sec 12 = 0 then 1 else 0) ≤ v.blockBitmap.clear n) :
    ∃ g, growFile part v has will = .ok g ∧ g.ok = true := by
  have empty : ∀ k, has ≤ k → k < 12 → v.inode.sec k = 0 := by
    intro k ge low
    by_contra some
    have := (filled.refs k (by omega)).1 (by rwa [blockRef_direct low])
    omega
  simp only [growFile]
  by_cases direct : will ≤ 12
  · have last : v.inode.sec (has - 1) ≠ 0 := by
      have := (filled.refs (has - 1) (by omega)).2 (by omega)
      rwa [blockRef_direct (by omega)] at this
    rw [if_pos direct, defined_of (show has - 1 < 13 by omega), ok_bind, assertThat_of last, ok_bind]
    exact growBlocks_returns lay _ _ _ map (by omega) fun k ge lt low => empty k ge low
  rw [if_neg direct]
  by_cases few : has ≤ 12
  · have none : v.inode.sec 12 = 0 := by
      by_contra some
      have := filled.table.1 some
      omega
    rw [if_pos ⟨by omega, none⟩] at enough
    obtain ⟨i, posi, inside, -, alloc, left⟩ := blockBitmapAlloc_some lay map (by omega)
    rw [if_pos few, alloc]
    obtain ⟨g, grown, ok⟩ := growBlocks_returns lay (will - has) has (fun k => if k = has - 1 then v.inode.sec (has - 1) else 0)
      (v := ⟨v.disk, bitmapSet v.blockBitmap i true, v.inode.setSec 12 (part.sb.dataStartLba + i)⟩) (map.set posi inside true)
      (by simp only; omega) fun k ge lt low => by
        rw [Inode.sec_setSec _ (by omega), if_neg (by omega)]
        exact empty k ge low
    simp only [assertThat_of none, ok_bind, grown, ok, Bool.true_eq_false, if_false,
      ideWrite_of (transferOk_one.2 (drive.block lay inside))]
    exact ⟨_, rfl, rfl⟩
  · have some : v.inode.sec 12 ≠ 0 := filled.table.2 (by omega)
    obtain ⟨g, grown, ok⟩ := growBlocks_returns lay (will - has) has
      (fun k => if k < 12 then 0 else word32 (shifted v.disk (512 * v.inode.sec 12)) (4 * (k - 12)))
      map (by omega) fun k ge lt low => by omega
    have onDisk := transferOk_one.2 filled.onDisk
    simp only [if_neg few, assertThat_of some, ok_bind, ideRead_of onDisk, grown, ok, Bool.true_eq_false, if_false,
      ideWrite_of onDisk]
    exact ⟨_, rfl, rfl⟩

/-- **The loop that stores the data** ends when the sectors of the file lie on the drive. -/
theorem writeLoop_returns {all : Nat → Nat} {buf : Image} {count : Nat} :
    ∀ (fuel : Nat) (first : Bool) (written fdPos left : Nat) (v : Vnode), left ≤ fuel → written + left = count →
      v.inode.iSize + left ≤ 512 * 140 → (∀ k, Touches v.inode.iSize left k → all k ≤ maxLba) →
      ∃ r, writeLoop all buf count fuel first written v fdPos = .ok r := by
  intro fuel
  induction fuel with
  | zero => exact fun _ _ _ _ _ _ _ _ _ => ⟨_, rfl⟩
  | succ fuel ih =>
    intro first written fdPos left v le sum small onDisk
    rcases Nat.eq_zero_or_pos left with rfl | more
    · rw [writeLoop, if_neg (by omega)]
      exact ⟨_, rfl⟩
    have low : v.inode.iSize / 512 < 140 := by omega
    have transfer := transferOk_one.2 (onDisk (v.inode.iSize / 512) ⟨more, Nat.le_refl _, by omega⟩)
    simp only [writeLoop, if_pos (show written < count by omega), defined_of low, ok_bind]
    obtain ⟨chunk, isChunk⟩ : ∃ chunk, chunk = if count - written < 512 - v.inode.iSize % 512 then count - written
      else 512 - v.inode.iSize % 512 := ⟨_, rfl⟩
    rw [← isChunk]
    have bounds : 0 < chunk ∧ v.inode.iSize % 512 + chunk ≤ 512 ∧ chunk ≤ left := by
      rw [isChunk]
      split <;> refine ⟨?_, ?_, ?_⟩ <;> omega
    obtain ⟨some, fits, le'⟩ := bounds
    rw [show addU32 v.inode.iSize chunk = v.inode.iSize + chunk from addU32_of_lt (by omega)]
    -- the rest of the data, whatever the buffer holds
    have next : ∀ disk, ∃ r, writeLoop all buf count fuel false (written + chunk)
        { v with disk := disk, inode := { v.inode with iSize := v.inode.iSize + chunk } } (addU32 fdPos chunk) = .ok r := by
      intro disk
      refine ih _ _ _ (left - chunk) _ (by omega) (by omega) (by simp only; omega) ?_
      rintro k ⟨h1, h2, h3⟩
      exact onDisk k ⟨more, by simp only at h2; omega, by simp only at h3; omega⟩
    cases first with
    | true =>
      simp only [if_true, ideRead_of transfer, ok_bind, ideWrite_of transfer]
      exact next _
    | false =>
      simp only [Bool.false_eq_true, if_false, pure, Except.pure, ok_bind, ideWrite_of transfer]
      exact next _

/-- The first block of a file is there, or is found. -/
theorem firstBlock_returns (lay : Layout part n) (map : BlockMap part n v.blockBitmap) (wf : FileWf part n v)
    (any : v.inode.sec 0 = 0 → 0 < v.blockBitmap.clear n) :
    ∃ w, firstBlock part v = .ok (true, w) ∧
      w.blockBitmap.clear n + (v.inode.iSize / 512 + 1 - fileBlocks v.inode) = v.blockBitmap.clear n := by
  rw [firstBlock]
  by_cases none : v.inode.sec 0 = 0
  · obtain ⟨i, pos, inside, -, alloc, left⟩ := blockBitmapAlloc_some lay map (any none)
    obtain ⟨disk, written⟩ := syncBlock_returns lay v.disk (bitmapSet v.blockBitmap i true) inside
    rw [if_pos none, alloc]
    simp only [lay.index inside, assertThat_of (show i ≠ 0 by omega), ok_bind, written]
    refine ⟨_, rfl, ?_⟩
    rw [fileBlocks, if_pos none, wf.empty none]
    exact left
  · rw [if_neg none, fileBlocks_of_some none]
    exact ⟨v, rfl, by omega⟩

/-- **`file_write`** of a count below the limit returns it when there are blocks enough and the inode does not
need two sectors of `io_buf`. -/
theorem writeFile_returns (lay : Layout part n) (drive : OnDrive part) (map : BlockMap part n v.blockBitmap)
    (wf : FileWf part n v) (one : OneSector (v.inode.iNo % 256)) {count : Nat} (below : v.inode.iSize + count < 512 * 140)
    (enough : Enough n v count)
    (fdPos : Nat) (buf : Image) : ∃ v' fdPos', writeFile part v fdPos buf count = .ok (some count, v', fdPos') := by
  have few := wf.few
  have atLeast : fileBlocks v.inode ≤ v.inode.iSize / 512 + 1 := by
    rw [fileBlocks]
    split <;> omega
  rw [Enough, blocksWanted] at enough
  obtain ⟨w, first, left⟩ := firstBlock_returns lay map wf fun none => by
    rw [fileBlocks, if_pos none] at enough
    omega
  obtain ⟨no, -⟩ | ⟨-, -, grow₁, filled₁, -, ino₁, table₁, -⟩ := firstBlock_ok lay map wf first
  · cases no
  have size₁ : w.inode.iSize = v.inode.iSize := by rw [ino₁]
  have sum : addU32 v.inode.iSize count = v.inode.iSize + count := addU32_of_lt (by omega)
  simp only [writeFile, first, ok_bind, Bool.true_eq_false, if_false, size₁, sum,
    assertThat_of (show (v.inode.iSize + count) / 512 + 1 ≤ 140 by omega)]
  generalize isWill : (v.inode.iSize + count) / 512 + 1 = will at *
  generalize isHas : v.inode.iSize / 512 + 1 = has at *
  -- the blocks
  have blocks : ∃ g, (if will = has then sameBlocks w has else growFile part w has will) = .ok g ∧ g.ok = true := by
    by_cases same : will = has
    · rw [if_pos same, sameBlocks]
      by_cases direct : has ≤ 12
      · rw [if_pos direct]
        exact ⟨_, rfl, rfl⟩
      · rw [if_neg direct, assertThat_of (filled₁.table.2 (by omega)), ok_bind, ideRead_of (transferOk_one.2 filled₁.onDisk)]
        exact ⟨_, rfl, rfl⟩
    · rw [if_neg same]
      refine growFile_returns lay drive grow₁.map filled₁ (by omega) (by omega) (by omega) ?_
      rw [table₁]
      omega
  obtain ⟨g, got, ok⟩ := blocks
  obtain ⟨-, extended⟩ := blocks_ok lay grow₁.map grow₁.wf filled₁ (by omega) (by omega) (by omega) got
  obtain ⟨ext, collected⟩ := extended ok
  have size₂ : g.v.inode.iSize = v.inode.iSize := by rw [ext.inode, size₁]
  -- the data
  have onDisk : ∀ k, Touches g.v.inode.iSize count k → g.all k ≤ maxLba := by
    rintro k ⟨-, ge, lt⟩
    rw [collected k (by omega) (by omega)]
    obtain ⟨i, inside, is, -⟩ := ext.grow.wf.block k (by omega) ((ext.filled.refs k (by omega)).2 (by omega))
    rw [is]
    exact drive.block lay inside
  obtain ⟨⟨v₃, fdPos₃⟩, stored⟩ : ∃ r, writeLoop g.all buf count count true 0 g.v (subU32 g.v.inode.iSize 1) = .ok r :=
    writeLoop_returns count true 0 _ count g.v (Nat.le_refl _) (Nat.zero_add _) (by omega) onDisk
  have number : v₃.inode.iNo = v.inode.iNo := (writeLoop_number count stored).trans (by rw [ext.inode, ino₁])
  have synced := inodeSyncThrough_returns lay.tableFits (show OneSector (v₃.inode.iNo % 256) by rwa [number]) v₃.disk
  refine ⟨{ v₃ with disk := splice v₃.disk (slotAddr part (v₃.inode.iNo % 256)) inodeSize v₃.inode.pure.image }, fdPos₃, ?_⟩
  rw [ite_bind_ok]
  refine ⟨g, got, ?_⟩
  simp only [ok, Bool.true_eq_false, if_false, stored, ok_bind, synced]
  rfl

/-- A sum that wraps around asks for no block, and the loop then leaves the table of addresses. -/
theorem writeFile_wrapped {fdPos count : Nat} {buf : Image} {r : Option Nat × Vnode × Nat} (some : v.inode.sec 0 ≠ 0)
    (more : 0 < count) (low : addU32 v.inode.iSize count ≤ v.inode.iSize) (large : 512 * 140 < v.inode.iSize + count) :
    writeFile part v fdPos buf count ≠ .ok r := by
  intro ran
  have few : addU32 v.inode.iSize count / 512 + 1 ≤ v.inode.iSize / 512 + 1 := by omega
  simp only [writeFile, firstBlock, if_neg some, pure, Except.pure, ok_bind, Bool.true_eq_false, if_false, bind_ok,
    assertThat_ok, exists_const, ite_bind_ok] at ran
  obtain ⟨-, g, got, ran⟩ := ran
  have blocks : g.ok = true ∧ g.v.inode = v.inode := by
    split at got
    · refine ⟨sameBlocks_enough got, ?_⟩
      simp only [sameBlocks] at got
      split at got
      · cases got
        rfl
      · simp only [bind_ok, assertThat_ok, pure_ok, exists_const] at got
        obtain ⟨-, table, -, rfl⟩ := got
        rfl
    · rename_i other
      exact growFile_short (by omega) got
  obtain ⟨ok, same⟩ := blocks
  simp only [ok, Bool.true_eq_false, if_false, bind_ok, Prod.exists] at ran
  obtain ⟨v₃, fdPos₃, stored, -⟩ := ran
  have := writeLoop_size count stored (Nat.le_refl _) (by rw [same]) (Nat.zero_add _) more
  omega

/-- The loop of `file_read` reads from 140 blocks at most. -/
theorem readLoop_size {disk : Image} {all : Nat → Nat} {size : Nat} : ∀ (fuel : Nat) {done fdPos left : Nat} {dst : Image}
    {r : Image × Nat}, readLoop disk all size fuel done fdPos dst = .ok r → left ≤ fuel → done + left = size → 0 < left →
    fdPos + left ≤ 512 * 140 := by
  intro fuel
  induction fuel with
  | zero => intros; omega
  | succ fuel ih =>
    intro done fdPos left dst r ran le sum more
    simp only [readLoop, if_pos (show done < size by omega), bind_ok, defined_ok, exists_const] at ran
    obtain ⟨low, ioBuf, -, ran⟩ := ran
    obtain ⟨chunk, isChunk⟩ : ∃ chunk, chunk = if size - done < 512 - fdPos % 512 then size - done
      else 512 - fdPos % 512 := ⟨_, rfl⟩
    rw [← isChunk] at ran
    have bounds : 0 < chunk ∧ fdPos % 512 + chunk ≤ 512 ∧ chunk ≤ left := by
      rw [isChunk]
      split <;> refine ⟨?_, ?_, ?_⟩ <;> omega
    obtain ⟨some, fits, le'⟩ := bounds
    rw [show addU32 fdPos chunk = fdPos + chunk from addU32_of_lt (by omega)] at ran
    by_cases last : chunk = left
    · omega
    · have : fdPos + chunk + (left - chunk) ≤ 512 * 140 := ih ran (by omega) (by omega) (by omega)
      omega

end Returns

/-- An open regular file that accepted writes have built, seen through slot `fdIdx`. -/
structure FileOn (part : Partition) (n : Nat) (me : Option Nat) (s : Fs) (fdIdx addr : Nat) : Prop where
  file : (s.fileTable fdIdx).fdInode = .inode addr
  reach : Reachable me s addr
  map : BlockMap part n s.blockBitmap
  wf : FileWf part n (s.vnode addr)
  pos : (s.fileTable fdIdx).fdPos ≤ (s.inodes addr).iSize

/-- The heap has room for the two allocations of a call. -/
def HeapOk (s : Fs) : Prop := s.mallocOk = true ∧ s.malloc.mallocOk = true

/-- What the limit of 71680 bytes promises of `file_write`. -/
def WriteExact (part : Partition) (n : Nat) (me : Option Nat) (s : Fs) (fdIdx addr : Nat) (buf : Image) (count : Nat) : Prop :=
  ((s.inodes addr).iSize + count ≤ 71680 → Enough n (s.vnode addr) count → HeapOk s →
    ∃ t, fileWrite part me s fdIdx buf count = .ok (some count, t)) ∧
  (71680 < (s.inodes addr).iSize + count →
    ∃ t, fileWrite part me s fdIdx buf count = .ok (none, t) ∧ t = { s with mallocs := t.mallocs })

/-- The position of the slot is the end of the file, and something is to be read. -/
def AtEnd (s : Fs) (fdIdx addr count : Nat) : Prop := (s.fileTable fdIdx).fdPos = (s.inodes addr).iSize ∧ 0 < count

instance (s : Fs) (fdIdx addr count : Nat) : Decidable (AtEnd s fdIdx addr count) :=
  inferInstanceAs (Decidable (_ ∧ _))

/-- What it promises of `file_read`. -/
def ReadExact (me : Option Nat) (s : Fs) (fdIdx addr : Nat) (dst : Image) (count : Nat) : Prop :=
  ∃ r dst' t, fileRead me s fdIdx dst count = .ok (r, dst', t) ∧
    r = (if AtEnd s fdIdx addr count then none else some (min count ((s.inodes addr).iSize - (s.fileTable fdIdx).fdPos))) ∧
    ∀ size, r = some size → ∀ i, i < size → dst' i = byteAt (s.vnode addr) ((s.fileTable fdIdx).fdPos + i)

/-- A write the heap lets through does not wrap around; with blocks enough, one up to the limit does not end at
71680 bytes and its inode's record lies in one sector. -/
def WriteLimits (n : Nat) (s : Fs) (addr count : Nat) : Prop :=
  HeapOk s → ((s.inodes addr).iSize + count ≤ 71680 → Enough n (s.vnode addr) count →
      (s.inodes addr).iSize + count ≠ 71680 ∧ OneSector ((s.inodes addr).iNo % 256)) ∧
    (s.inodes addr).iSize + count < 2 ^ 32

/-- A read does not wrap around, finds the heap it needs and ends in the first 139 blocks. -/
def ReadLimits (s : Fs) (fdIdx addr count : Nat) : Prop :=
  if AtEnd s fdIdx addr count then (s.fileTable fdIdx).fdPos + count < 2 ^ 32 ∨ s.malloc.mallocOk = false
  else HeapOk s ∧ (s.fileTable fdIdx).fdPos + count < 2 ^ 32 ∧
    min ((s.fileTable fdIdx).fdPos + count) (s.inodes addr).iSize < 139 * 512

section Limits

variable {part : Partition} {n : Nat} {me : Option Nat} {s : Fs} {fdIdx addr count : Nat} {buf dst : Image}

/-- `file_write` past its checks. -/
theorem fileWrite_eq (file : (s.fileTable fdIdx).fdInode = .inode addr) (reach : Reachable me s addr)
    (low : addU32 (s.inodes addr).iSize count ≤ 71680) (heap : HeapOk s) :
    fileWrite part me s fdIdx buf count = writeFile part (s.vnode addr) (s.fileTable fdIdx).fdPos buf count >>= fun r =>
      .ok (r.1, (s.malloc.malloc.setVnode addr r.2.1).setFile fdIdx { s.fileTable fdIdx with fdPos := r.2.2 }) := by
  have small : ¬ 512 * 140 < addU32 (s.inodes addr).iSize count := by omega
  simp only [fileWrite, file, defined_of reach, ok_bind, if_neg small, heap.1, heap.2, Bool.true_eq_false, if_false]
  rw [← file]
  rfl

theorem FileOn.size_lt (on : FileOn part n me s fdIdx addr) : (s.inodes addr).iSize < 71680 := by
  have few : fileBlocks (s.inodes addr) ≤ 140 := on.wf.few
  by_cases none : (s.inodes addr).sec 0 = 0
  · have := on.wf.empty none
    simp only [Fs.vnode] at this
    omega
  · rw [fileBlocks_of_some none] at few
    omega

/-- **The limit of `file_write`** is exact but for a file of 71680 bytes, for sums that wrap around and for inodes
whose record lies across two sectors. -/
theorem FileOn.writeExact_iff (on : FileOn part n me s fdIdx addr) (lay : Layout part n) (drive : OnDrive part)
    (word : count < 2 ^ 32) : WriteExact part n me s fdIdx addr buf count ↔ WriteLimits n s addr count := by
  have size := on.size_lt
  constructor
  · rintro ⟨accepts, refuses⟩ heap
    constructor
    · intro le enough
      obtain ⟨t, wrote⟩ := accepts le enough heap
      rw [fileWrite_eq on.file on.reach (by rw [addU32_of_lt] <;> omega) heap, bind_ok] at wrote
      obtain ⟨⟨r, v', fdPos'⟩, wrote, is⟩ := wrote
      cases is
      obtain ⟨-, -, no | ⟨-, written⟩⟩ := writeFile_ok lay on.map on.wf wrote
      · cases no
      have one := writeFile_oneSector wrote
      rw [written.inode] at one
      refine ⟨fun full => ?_, one⟩
      -- 71680 bytes would need 141 blocks
      have size' : v'.inode.iSize = 71680 := by
        rw [written.inode]
        exact full
      have few := written.wf.few
      have some : v'.inode.sec 0 ≠ 0 := fun none => by
        have := written.wf.empty none
        omega
      rw [fileBlocks_of_some some] at few
      omega
    · -- a sum that wraps around is below the size
      by_contra wraps
      have low : addU32 (s.inodes addr).iSize count ≤ (s.inodes addr).iSize := by
        simp only [addU32]
        omega
      obtain ⟨t, failed, -⟩ := refuses (by omega)
      rw [fileWrite_eq on.file on.reach (by omega) heap, bind_ok] at failed
      obtain ⟨r, wrote, -⟩ := failed
      have some : (s.vnode addr).inode.sec 0 ≠ 0 := fun none => by
        have : (s.inodes addr).iSize = 0 := on.wf.empty none
        omega
      exact writeFile_wrapped some (by omega) low (by simp only [Fs.vnode]; omega) wrote
  · intro limits
    constructor
    · intro le enough heap
      obtain ⟨accepted, -⟩ := limits heap
      obtain ⟨notFull, one⟩ := accepted le enough
      have below : (s.vnode addr).inode.iSize + count < 512 * 140 := by
        simp only [Fs.vnode]
        omega
      obtain ⟨v', fdPos', wrote⟩ := writeFile_returns lay drive on.map on.wf one below enough (s.fileTable fdIdx).fdPos buf
      rw [fileWrite_eq on.file on.reach (by rw [addU32_of_lt] <;> omega) heap, wrote, ok_bind]
      exact ⟨_, rfl⟩
    · intro large
      simp only [fileWrite, on.file, defined_of on.reach, ok_bind]
      by_cases refused : 512 * 140 < addU32 (s.inodes addr).iSize count
      · rw [if_pos refused]
        exact ⟨s, rfl, rfl⟩
      rw [if_neg refused]
      by_cases heap₁ : s.mallocOk = false
      · rw [if_pos heap₁]
        exact ⟨s.malloc, rfl, rfl⟩
      rw [if_neg heap₁]
      by_cases heap₂ : s.malloc.mallocOk = false
      · rw [if_pos heap₂]
        exact ⟨s.malloc.malloc, rfl, rfl⟩
      -- with the heap there the sum did not wrap around
      obtain ⟨-, noWrap⟩ := limits ⟨by simpa using heap₁, by simpa using heap₂⟩
      rw [addU32_of_lt noWrap] at refused
      omega

/-- `file_read` past its checks. -/
theorem FileOn.fileRead_eq (on : FileOn part n me s fdIdx addr)
    (some : ¬ ((s.inodes addr).iSize < addU32 (s.fileTable fdIdx).fdPos count ∧
      subU32 (s.inodes addr).iSize (s.fileTable fdIdx).fdPos = 0)) :
    fileRead me s fdIdx dst count = if s.malloc.mallocOk = false then .ok (none, dst, s.malloc.malloc)
      else defined (s.mallocOk = true) >>= fun _ =>
        readFile s.disk (s.inodes addr) (s.fileTable fdIdx).fdPos dst count >>= fun r =>
          .ok (r.1, r.2.1, s.malloc.malloc.setFile fdIdx { s.fileTable fdIdx with fdPos := r.2.2 }) := by
  simp only [fileRead, on.file, defined_of on.reach, ok_bind, if_neg some]
  rw [← on.file]
  rfl

/-- A read that wraps around leaves the table of addresses. -/
theorem FileOn.readFile_wrapped (on : FileOn part n me s fdIdx addr) (word : count < 2 ^ 32)
    (wraps : 2 ^ 32 ≤ (s.fileTable fdIdx).fdPos + count) (r : Option Nat × Image × Nat) :
    readFile s.disk (s.inodes addr) (s.fileTable fdIdx).fdPos dst count ≠ .ok r := by
  intro ran
  have size := on.size_lt
  have pos := on.pos
  have inside : ¬ (s.inodes addr).iSize < addU32 (s.fileTable fdIdx).fdPos count := by
    simp only [addU32]
    omega
  simp only [readFile, inside, if_false, false_and, bind_ok, assertThat_ok, exists_const] at ran
  obtain ⟨-, all, -, loop, read, -⟩ := ran
  have := readLoop_size count read (Nat.le_refl _) (Nat.zero_add _) (by omega)
  omega

/-- When the sum wraps around all that can be returned is -1, for want of heap. -/
theorem FileOn.readExact_wrapped (on : FileOn part n me s fdIdx addr) (word : count < 2 ^ 32)
    (wraps : 2 ^ 32 ≤ (s.fileTable fdIdx).fdPos + count) : ReadExact me s fdIdx addr dst count ↔ ReadLimits s fdIdx addr count := by
  have size := on.size_lt
  have pos := on.pos
  have some : ¬ ((s.inodes addr).iSize < addU32 (s.fileTable fdIdx).fdPos count ∧
      subU32 (s.inodes addr).iSize (s.fileTable fdIdx).fdPos = 0) := by
    simp only [addU32]
    omega
  rw [ReadExact, ReadLimits, on.fileRead_eq some]
  by_cases heap : s.malloc.mallocOk = false
  · rw [if_pos heap]
    by_cases end_ : AtEnd s fdIdx addr count
    · simp only [if_pos end_, heap, or_true, iff_true]
      exact ⟨none, dst, _, rfl, rfl, by rintro _ ⟨⟩⟩
    · simp only [if_neg end_]
      constructor
      · rintro ⟨r, dst', t, ran, is, -⟩
        cases ran
        cases is
      · rintro ⟨⟨-, heap'⟩, -⟩
        rw [heap] at heap'
        cases heap'
  · rw [if_neg heap]
    constructor
    · rintro ⟨r, dst', t, ran, -⟩
      simp only [bind_ok] at ran
      obtain ⟨-, -, r', ran, -⟩ := ran
      exact absurd ran (on.readFile_wrapped word wraps r')
    · intro limits
      split at limits
      · exact limits.elim (fun _ => by omega) fun none => absurd none heap
      · obtain ⟨-, noWrap, -⟩ := limits
        omega

/-- At the end of the file -1 is returned. -/
theorem FileOn.readExact_atEnd (on : FileOn part n me s fdIdx addr) (noWrap : (s.fileTable fdIdx).fdPos + count < 2 ^ 32)
    (end_ : AtEnd s fdIdx addr count) : ReadExact me s fdIdx addr dst count := by
  have size := on.size_lt
  rw [ReadExact, if_pos end_]
  refine ⟨none, dst, s, ?_, rfl, by rintro _ ⟨⟩⟩
  obtain ⟨isEnd, more⟩ := end_
  simp only [fileRead, on.file, defined_of on.reach, ok_bind]
  rw [if_pos (by rw [addU32_of_lt noWrap, subU32_of_le on.pos (by omega)]; omega)]
  rfl

/-- `file_read` past its checks, for a sum that does not wrap around. -/
theorem FileOn.fileRead_inside (on : FileOn part n me s fdIdx addr) (noWrap : (s.fileTable fdIdx).fdPos + count < 2 ^ 32)
    (end_ : ¬ AtEnd s fdIdx addr count) :
    fileRead me s fdIdx dst count = if s.malloc.mallocOk = false then .ok (none, dst, s.malloc.malloc)
      else defined (s.mallocOk = true) >>= fun _ =>
        readFile s.disk (s.inodes addr) (s.fileTable fdIdx).fdPos dst count >>= fun r =>
          .ok (r.1, r.2.1, s.malloc.malloc.setFile fdIdx { s.fileTable fdIdx with fdPos := r.2.2 }) := by
  have size := on.size_lt
  have pos := on.pos
  refine on.fileRead_eq ?_
  rw [addU32_of_lt noWrap, subU32_of_le pos (by omega)]
  rintro ⟨past, none⟩
  exact end_ ⟨by omega, by omega⟩

/-- An exact read found the heap, and its last block passed the assertion. -/
theorem FileOn.readLimits_of (on : FileOn part n me s fdIdx addr) (noWrap : (s.fileTable fdIdx).fdPos + count < 2 ^ 32)
    (end_ : ¬ AtEnd s fdIdx addr count) (exact_ : ReadExact me s fdIdx addr dst count) : ReadLimits s fdIdx addr count := by
  have size := on.size_lt
  have pos := on.pos
  rw [ReadExact, on.fileRead_inside noWrap end_, if_neg end_] at exact_
  rw [ReadLimits, if_neg end_]
  obtain ⟨r, dst', t, ran, is, -⟩ := exact_
  by_cases heap : s.malloc.mallocOk = false
  · rw [if_pos heap] at ran
    cases ran
    cases is
  rw [if_neg heap] at ran
  simp only [bind_ok, defined_ok, exists_const] at ran
  obtain ⟨heap', r', ran, -⟩ := ran
  refine ⟨⟨heap', by simpa using heap⟩, noWrap, ?_⟩
  rw [AtEnd] at end_
  obtain ⟨size', isSize⟩ : ∃ size', size' = if (s.inodes addr).iSize < (s.fileTable fdIdx).fdPos + count then
    (s.inodes addr).iSize - (s.fileTable fdIdx).fdPos else count := ⟨_, rfl⟩
  have size_ : size' = min ((s.fileTable fdIdx).fdPos + count) (s.inodes addr).iSize - (s.fileTable fdIdx).fdPos := by
    rw [isSize]
    split <;> omega
  simp only [readFile, addU32_of_lt noWrap, subU32_of_le pos (by omega : _ < 2 ^ 32), ← isSize] at ran
  rw [if_neg (by omega), addU32_of_lt (by omega)] at ran
  simp only [bind_ok, assertThat_ok, exists_const] at ran
  obtain ⟨⟨-, last⟩, -⟩ := ran
  omega

/-- A read within the limits is exact. -/
theorem FileOn.readExact_of (on : FileOn part n me s fdIdx addr) (noWrap : (s.fileTable fdIdx).fdPos + count < 2 ^ 32)
    (end_ : ¬ AtEnd s fdIdx addr count) (limits : ReadLimits s fdIdx addr count) : ReadExact me s fdIdx addr dst count := by
  have pos := on.pos
  rw [ReadExact, on.fileRead_inside noWrap end_, if_neg end_]
  rw [ReadLimits, if_neg end_] at limits
  obtain ⟨⟨heap, heap'⟩, -, small⟩ := limits
  rw [if_neg (by simp [heap']), defined_of heap, ok_bind]
  by_cases wrote : (s.inodes addr).sec 0 = 0
  · -- nothing was ever written, and nothing is read
    have empty : (s.inodes addr).iSize = 0 := on.wf.empty wrote
    rw [AtEnd] at end_
    obtain rfl : count = 0 := by omega
    obtain start : (s.fileTable fdIdx).fdPos = 0 := by omega
    refine ⟨some 0, dst, s.malloc.malloc.setFile fdIdx { s.fileTable fdIdx with fdPos := 0 }, ?_, by simp, ?_⟩
    · simp [readFile, empty, start, addU32, readBlocks, readLoop, assertThat, bind, Except.bind, pure, Except.pure]
    · rintro _ ⟨⟩ i lt
      omega
  · obtain ⟨isEnd, more, -⟩ | ⟨k, dst', -, isSize, ran, bytes⟩ := readFile_spec on.wf dst wrote (fun _ => small) pos noWrap
    · exact absurd ⟨isEnd, more⟩ end_
    · have read : readFile s.disk (s.inodes addr) (s.fileTable fdIdx).fdPos dst count =
        .ok (some k, dst', (s.fileTable fdIdx).fdPos + k) := ran
      rw [read, ok_bind]
      refine ⟨some k, dst', _, rfl, ?_, ?_⟩
      · have size_ : k = min ((s.fileTable fdIdx).fdPos + count) (s.inodes addr).iSize - (s.fileTable fdIdx).fdPos := isSize
        rw [size_]
        congr 1
        omega
      · rintro _ ⟨⟩
        exact bytes

/-- **The limit of `file_read`** is exact below block 139 but for sums that wrap around. -/
theorem FileOn.readExact_iff (on : FileOn part n me s fdIdx addr) (word : count < 2 ^ 32) :
    ReadExact me s fdIdx addr dst count ↔ ReadLimits s fdIdx addr count := by
  by_cases wraps : 2 ^ 32 ≤ (s.fileTable fdIdx).fdPos + count
  · exact on.readExact_wrapped word wraps
  replace wraps := Nat.not_le.1 wraps
  by_cases end_ : AtEnd s fdIdx addr count
  · refine ⟨fun _ => ?_, fun _ => on.readExact_atEnd wraps end_⟩
    rw [ReadLimits, if_pos end_]
    exact .inl wraps
  · exact ⟨on.readLimits_of wraps end_, on.readExact_of wraps end_⟩

/-- **The file size limit is exact** for the writes within `WriteLimits` and the reads within
`ReadLimits`, and for no others. -/
theorem fileLimits_iff (lay : Layout part n) (drive : OnDrive part) (on : FileOn part n me s fdIdx addr)
    (word : count < 2 ^ 32) :
    (WriteExact part n me s fdIdx addr buf count ↔ WriteLimits n s addr count) ∧
      (ReadExact me s fdIdx addr dst count ↔ ReadLimits s fdIdx addr count) :=
  ⟨on.writeExact_iff lay drive word, on.readExact_iff word⟩

/-- A file that was written from its creation on, opened anywhere. -/
theorem Holds.fileOn {data : List Byte} (holds : Holds part n me s fdIdx addr data) {pos : Nat} (le : pos ≤ data.length)
    (rd flag : Nat) : FileOn part n me (s.setFile rd ⟨pos, flag, .inode addr⟩) rd addr := by
  constructor
  · simp [Fs.setFile]
  · exact holds.reach
  · exact holds.map
  · exact holds.wf
  · have size : ((s.setFile rd ⟨pos, flag, .inode addr⟩).inodes addr).iSize = data.length := holds.size
    rw [size]
    simpa [Fs.setFile] using le

end Limits

theorem smallFile_on : FileOn smallPartition 388 none smallFile 3 0 :=
  ⟨rfl, .inl rfl, smallPartition_map, smallFile_new.holds.wf, Nat.le_refl _⟩

theorem smallPartition_onDrive : OnDrive smallPartition := by
  rw [OnDrive]
  decide

/-- The blocks of the small partition are enough for the largest file. -/
theorem smallFile_enough {count : Nat} (le : count ≤ 71680) : Enough 388 (smallFile.vnode 0) count := by
  have clear : smallFile.blockBitmap.clear 388 = 387 := by decide +kernel
  have wanted : blocksWanted (smallFile.vnode 0) count ≤ 142 := by
    rw [blocksWanted]
    have size : (smallFile.vnode 0).inode.iSize = 0 := rfl
    rw [size]
    split <;> omega
  show _ ≤ smallFile.blockBitmap.clear 388
  omega

theorem smallFile_heap : HeapOk smallFile := by
  constructor <;> rfl

/-- The largest file, and the end of an empty one. -/
theorem fileLimits_small : (∃ t, fileWrite smallPartition none smallFile 3 zeros 71679 = .ok (some 71679, t)) ∧
    ReadExact none smallFile 3 0 zeros 71679 := by
  obtain ⟨write, read⟩ : (WriteExact smallPartition 388 none smallFile 3 0 zeros 71679 ↔ WriteLimits 388 smallFile 0 71679) ∧
      (ReadExact none smallFile 3 0 zeros 71679 ↔ ReadLimits smallFile 3 0 71679) :=
    fileLimits_iff smallPartition_layout smallPartition_onDrive smallFile_on (by decide)
  have size : (smallFile.inodes 0).iSize = 0 := rfl
  refine ⟨(write.2 fun _ => ?_).1 ?_ (smallFile_enough (by decide)) smallFile_heap, read.2 ?_⟩
  · rw [size]
    exact ⟨fun _ _ => by decide, by decide⟩
  · rw [size]
    decide
  · rw [ReadLimits, if_pos ⟨rfl, by decide⟩]
    exact .inl (by decide)

/-- The same file with a number whose record lies across two sectors. -/
def acrossFile : Fs := { smallFile with inodes := fun _ => inodeInit 6 }

theorem acrossFile_on : FileOn smallPartition 388 none acrossFile 3 0 := by
  refine ⟨rfl, .inl rfl, smallPartition_map, fileWf_empty (show 6 < 2 ^ 32 by decide) rfl fun k => ?_, Nat.le_refl _⟩
  simp only [acrossFile, inodeInit, Inode.sec]
  split <;> rfl

/-- Not accepted: the write that would fill the limit, and any to a file whose inode lies across two sectors. Not
refused: a write beyond the limit whose sum wraps around. Not read: the last byte of 139 blocks. -/
theorem fileLimits_missed : ¬ WriteExact smallPartition 388 none smallFile 3 0 zeros 71680 ∧
    ¬ WriteExact smallPartition 388 none acrossFile 3 0 zeros 1 ∧
    ∃ t, fileWrite smallPartition none smallFile 3 zeros 71168 = .ok (some 71168, t) ∧
      FileOn smallPartition 388 none (t.setFile 3 ⟨71167, oRdwr, .inode 0⟩) 3 0 ∧
      ¬ WriteExact smallPartition 388 none (t.setFile 3 ⟨71167, oRdwr, .inode 0⟩) 3 0 zeros (2 ^ 32 - 71168) ∧
      ¬ ReadExact none (t.setFile 3 ⟨71167, oRdwr, .inode 0⟩) 3 0 zeros 1 := by
  have size : (smallFile.inodes 0).iSize = 0 := rfl
  have limit : ∀ {count : Nat}, count < 2 ^ 32 →
      (WriteExact smallPartition 388 none smallFile 3 0 zeros count ↔ WriteLimits 388 smallFile 0 count) :=
    smallFile_on.writeExact_iff smallPartition_layout smallPartition_onDrive
  constructor
  · rw [limit (by decide)]
    intro limits
    have full : (smallFile.inodes 0).iSize + 71680 = 71680 := by rw [size]
    exact ((limits smallFile_heap).1 (Nat.le_of_eq full) (smallFile_enough (by decide))).1 full
  constructor
  · rw [acrossFile_on.writeExact_iff smallPartition_layout smallPartition_onDrive (by decide)]
    intro limits
    have enough : Enough 388 (smallFile.vnode 0) 1 := smallFile_enough (by decide)
    have one := ((limits smallFile_heap).1 (by decide) enough).2
    exact absurd one (by decide)
  obtain ⟨t, wrote⟩ := ((limit (show 71168 < 2 ^ 32 by decide)).2 fun _ => by
    rw [size]
    exact ⟨fun _ _ => by decide, by decide⟩).1 (by rw [size]; decide) (smallFile_enough (by decide)) smallFile_heap
  have holds := (smallFile_new.holds.write smallPartition_layout wrote).2
  have size' : (t.inodes 0).iSize = 71168 := by
    rw [holds.size]
    simp
  have on : FileOn smallPartition 388 none (t.setFile 3 ⟨71167, oRdwr, .inode 0⟩) 3 0 := holds.fileOn (by simp) 3 oRdwr
  refine ⟨t, wrote, on, ?_, ?_⟩
  · rw [on.writeExact_iff smallPartition_layout smallPartition_onDrive (by decide)]
    intro limits
    have heap : HeapOk (t.setFile 3 ⟨71167, oRdwr, .inode 0⟩) := by
      simp [HeapOk, Fs.mallocOk, Fs.malloc, Fs.setFile, holds.heap]
    have noWrap : (t.inodes 0).iSize + (2 ^ 32 - 71168) < 2 ^ 32 := (limits heap).2
    omega
  · rw [on.readExact_iff (by decide), ReadLimits]
    have slot : (t.setFile 3 ⟨71167, oRdwr, .inode 0⟩).fileTable 3 = ⟨71167, oRdwr, .inode 0⟩ := by simp [Fs.setFile]
    have inodes : (t.setFile 3 ⟨71167, oRdwr, .inode 0⟩).inodes = t.inodes := rfl
    have notEnd : ¬ AtEnd (t.setFile 3 ⟨71167, oRdwr, .inode 0⟩) 3 0 1 := by
      rintro ⟨isEnd, -⟩
      rw [slot, inodes, size'] at isEnd
      exact absurd isEnd (by decide)
    rw [if_neg notEnd, slot, inodes, size']
    rintro ⟨-, -, small⟩
    exact absurd small (by decide)

end Sparrow
