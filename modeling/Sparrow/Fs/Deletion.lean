import Sparrow.Fs.DirSize

/-!
# Whether `delete_dir_entry` returns

When an entry was the last one of an indirect block, `delete_dir_entry` counts the indirect
blocks of the directory, and the loop that counts them never advances its index. Here the
loop and what stands behind it are written out, with a bound on the turns. No bound is enough
(`countIndirect_diverges`), and this is the only thing that keeps the function from
returning (`deletes_iff`).
-/

namespace Sparrow
set_option autoImplicit false

/-- The loop over the indirect blocks, for at most `fuel` turns. -/
def countIndirect (all : Nat → Nat) (indirectBlockIdx : Nat) : Nat → Nat → Exec Nat
  | 0, _ => throw .diverge
  | fuel + 1, indirectBlocks =>
    if indirectBlockIdx < 140 then
      -- the source does not change the index here
      countIndirect all indirectBlockIdx fuel
        (if all indirectBlockIdx ≠ 0 then addU32 indirectBlocks 1 else indirectBlocks)
    else return indirectBlocks

/-- The address of an indirect block goes from the table, or the table itself goes. -/
def dropIndirect (part : Partition) (v : Vnode) (all : Nat → Nat) (blockIdx indirectBlocks : Nat) : Exec Vnode := do
  assertThat (1 ≤ indirectBlocks)
  if 1 < indirectBlocks then
    let all := fun k => if k = blockIdx then 0 else all k
    let disk ← ideWrite v.disk (v.inode.sec 12) 1 (tableImage all)
    return { v with disk := disk }
  else
    let v ← reclaimBlock part v (v.inode.sec 12)
    return { v with inode := v.inode.setSec 12 0 }

/-- `eraseEntry`, with the loop over the indirect blocks. -/
def eraseWithin (fuel : Nat) (part : Partition) (v : Vnode) (all : Nat → Nat) (ioBuf : Image) (blockIdx j : Nat)
    (sc : BlockScan) : Exec Vnode :=
  if sc.entryCnt = 1 ∧ sc.isDirFirstBlock = false then do
    let v ← reclaimBlock part v (all blockIdx)
    if blockIdx < 12 then return { v with inode := v.inode.setSec blockIdx 0 }
    else do
      let indirectBlocks ← countIndirect all 12 fuel 0
      dropIndirect part v all blockIdx indirectBlocks
  else do
    let disk ← ideWrite v.disk (all blockIdx) 1 (fill ioBuf (direntSize * j) part.sb.dirEntrySize 0#8)
    return { v with disk := disk }

def deleteFoundWithin (fuel : Nat) (part : Partition) (v : Vnode) (all : Nat → Nat) (ioBuf : Image) (blockIdx j : Nat)
    (sc : BlockScan) : Exec Vnode := do
  assertThat (1 ≤ sc.entryCnt)
  let v ← eraseWithin fuel part v all ioBuf blockIdx j sc
  assertThat (part.sb.dirEntrySize ≤ v.inode.iSize)
  let inode := { v.inode with iSize := v.inode.iSize - part.sb.dirEntrySize }
  let disk ← inodeSync part v.disk inode
  return { v with disk := disk, inode := inode }

def deleteBlocksWithin (fuel : Nat) (part : Partition) (v : Vnode) (all : Nat → Nat) (inodeNo : Nat) :
    List Nat → Exec (Bool × Vnode)
  | [] => return (false, v)
  | blockIdx :: rest =>
    if all blockIdx = 0 then deleteBlocksWithin fuel part v all inodeNo rest
    else do
      let ioBuf ← ideRead v.disk (all blockIdx) 1
      let sc ← (List.range (512 / part.sb.dirEntrySize)).foldlM (scanEntry ioBuf inodeNo) ⟨none, 0, false⟩
      match sc.entryFound with
      | none => deleteBlocksWithin fuel part v all inodeNo rest
      | some j => do
        let v ← deleteFoundWithin fuel part v all ioBuf blockIdx j sc
        return (true, v)

/-- `delete_dir_entry`, for at most `fuel` turns of the loop over the indirect blocks. -/
def deleteDirEntryWithin (fuel : Nat) (part : Partition) (v : Vnode) (inodeNo : Nat) : Exec (Bool × Vnode) := do
  let all ← allBlocks v.disk v.inode
  deleteBlocksWithin fuel part v all inodeNo (List.range 140)

section Loop

variable {part : Partition} {v : Vnode} {all : Nat → Nat} {inodeNo : Nat}

/-- **The loop over the indirect blocks** goes on for any number of turns. -/
theorem countIndirect_diverges (idx : Nat) (lt : idx < 140) : ∀ fuel indirectBlocks,
    countIndirect all idx fuel indirectBlocks = .error .diverge := by
  intro fuel
  induction fuel with
  | zero =>
    intro _
    rfl
  | succ fuel ih =>
    intro indirectBlocks
    rw [countIndirect, if_pos lt]
    exact ih _

theorem eraseWithin_eq (fuel : Nat) (ioBuf : Image) (blockIdx j : Nat) (sc : BlockScan) :
    eraseWithin fuel part v all ioBuf blockIdx j sc = eraseEntry part v all ioBuf blockIdx j sc := by
  simp only [eraseWithin, eraseEntry, countIndirect_diverges 12 (by omega)]
  rfl

theorem deleteBlocksWithin_eq (fuel : Nat) (l : List Nat) :
    deleteBlocksWithin fuel part v all inodeNo l = deleteBlocks part v all inodeNo l := by
  have found : ∀ ioBuf blockIdx j sc, deleteFoundWithin fuel part v all ioBuf blockIdx j sc =
      deleteFound part v all ioBuf blockIdx j sc := by
    intro ioBuf blockIdx j sc
    rw [deleteFoundWithin, deleteFound, eraseWithin_eq]
  induction l with
  | nil => rfl
  | cons blockIdx rest ih =>
    simp only [deleteBlocksWithin, ih, found]
    rfl

/-- However many turns it gets, the function is the one whose loop does not end. -/
theorem deleteDirEntryWithin_eq (fuel : Nat) : deleteDirEntryWithin fuel part v inodeNo = deleteDirEntry part v inodeNo := by
  simp only [deleteDirEntryWithin, deleteDirEntry, deleteBlocksWithin_eq]

end Loop

/-- A directory, with its entries in any blocks: its blocks are data blocks of the partition in
use, each slot is empty or holds an entry, `.` stands in the first block and `..` in no other,
no two entries have one number, and `i_size` counts the slots in use. -/
structure DirShape (part : Partition) (n : Nat) (v : Vnode) : Prop where
  map : BlockMap part n v.blockBitmap
  blocks : BlocksWf part n v.blockBitmap (blockRef v.disk v.inode)
  onDisk : ∀ k, k < 141 → blockRef v.disk v.inode k ≤ maxLba
  used : ∀ k j, k < 140 → j < 21 → blockRef v.disk v.inode k ≠ 0 →
    (entryAt v.disk v.inode k j).Dead ∨ ∃ x : Item, entryAt v.disk v.inode k j = x.entry
  dot : ∃ x, ItemAt v 0 0 x ∧ x.name = .dot
  dots : ∀ k j x, ItemAt v k j x → ¬ x.Ordinary → k = 0
  numbers : ∀ k j x k' j' y, ItemAt v k j x → ItemAt v k' j' y → x.Ordinary → y.Ordinary → x.iNo = y.iNo → k = k' ∧ j = j'
  sized : Sized v

/-- The entry of the number stands alone in block `k`, one of the indirect blocks. -/
structure AloneIn (v : Vnode) (inodeNo k : Nat) : Prop where
  indirect : 12 ≤ k
  entry : ∃ j x, ItemAt v k j x ∧ x.Ordinary ∧ x.iNo = inodeNo ∧ ∀ j' y, ItemAt v k j' y → j' = j

/-- `delete_dir_entry` returns; if the entry stood alone in an indirect block, the block is
free, and so is the table if this was its last block. -/
def Deletes (part : Partition) (v : Vnode) (inodeNo : Nat) : Prop :=
  ∃ fuel ok v', deleteDirEntryWithin fuel part v inodeNo = .ok (ok, v') ∧
    ∀ k, AloneIn v inodeNo k →
      (∀ i, blockRef v.disk v.inode k = part.sb.dataStartLba + i → ¬ v'.blockBitmap.Set i) ∧
      ((∀ k', 12 ≤ k' → k' < 140 → blockRef v.disk v.inode k' ≠ 0 → k' = k) →
        v'.inode.sec 12 = 0 ∧ ∀ i, v.inode.sec 12 = part.sb.dataStartLba + i → ¬ v'.blockBitmap.Set i)

section Returns

variable {part : Partition} {n : Nat} {v : Vnode} {all : Nat → Nat} {inodeNo k : Nat}

/-- The scan of a block returns when no two of its entries have the number. -/
theorem scan_returns {buf : Image}
    (used : ∀ j, j < 21 → (decodeDirent buf 0 j).Dead ∨ ∃ x : Item, decodeDirent buf 0 j = x.entry)
    (once : ∀ j j', j < 21 → j' < 21 → HitAt buf inodeNo j → HitAt buf inodeNo j' → j = j') :
    ∀ m, m ≤ 21 → ∃ sc, (List.range m).foldlM (scanEntry buf inodeNo) ⟨none, 0, false⟩ = .ok sc := by
  intro m
  induction m with
  | zero => exact fun _ => ⟨_, rfl⟩
  | succ m ih =>
    intro le
    rw [List.range_succ, List.foldlM_append]
    refine bind_returns (ih (by omega)) fun sc ran => ?_
    have scanned := scan_spec used m sc (by omega) ran
    simp only [List.foldlM_cons, List.foldlM_nil]
    refine bind_returns ?_ fun sc' _ => ⟨sc', rfl⟩
    obtain dead | ⟨x, entry⟩ := used m (by omega)
    · exact ⟨sc, scanEntry_dead dead⟩
    -- a second hit would fail the assertion
    have fresh : HitAt buf inodeNo m → sc.entryFound = none := by
      intro hit
      cases found : sc.entryFound with
      | none => rfl
      | some j =>
        obtain ⟨lt, hit'⟩ := scanned.found j found
        have := once j m (by omega) (by omega) hit' hit
        omega
    have isDot := strEq_item entry .dot
    have isDotDot := strEq_item entry .dotDot
    simp only [Nat.zero_add] at isDot isDotDot
    simp only [scanEntry, entry, ne_eq, x.fType_ne, not_false_eq_true, if_true]
    split
    · exact ⟨_, rfl⟩
    rename_i notDot
    split
    · rename_i notDotDot
      split
      · rename_i same
        have ordinary : x.Ordinary := by
          refine ⟨fun e => notDot (isDot.2 e), fun e => ?_⟩
          rw [show strEq buf (direntSize * m) dotDot = true from isDotDot.2 e] at notDotDot
          cases notDotDot
        rw [assertThat_of (fresh ⟨x, entry, ordinary, same⟩)]
        exact ⟨_, rfl⟩
      · exact ⟨_, rfl⟩
    · exact ⟨_, rfl⟩

/-- The bit of a data block is cleared and written. -/
theorem reclaimBlock_returns (lay : Layout part n) (map : BlockMap part n v.blockBitmap) {lba : Nat}
    (block : DataBlock part n v.blockBitmap lba) : ∃ v', reclaimBlock part v lba = .ok v' ∧ v'.inode = v.inode := by
  obtain ⟨i, inside, rfl, -⟩ := block
  have sector := lay.bitmapSector inside
  have h1 := lay.inodeTableLba
  have h2 := lay.dataStartLba
  have h3 := lay.onDisk
  have h4 := lay.sects
  have len := map.len
  have bound : i / 8 < v.blockBitmap.btmpBytesLen := by omega
  have transfer : TransferOk (part.sb.blockBitmapLba + i / 4096) 1 := transferOk_one.2 (by omega)
  rw [reclaimBlock, lay.index inside, bitmapClear, defined_of bound]
  simp only [ok_bind, pure, Except.pure, bitmapSync, ideWrite_of transfer]
  exact ⟨_, rfl, rfl⟩

/-- What the scan of block `k` says about the directory. -/
structure BlockScanned (v : Vnode) (inodeNo k : Nat) (sc : BlockScan) : Prop where
  scanned : Scanned (shifted v.disk (512 * blockRef v.disk v.inode k)) inodeNo 21 sc
  hits : ∀ {j}, HitAt (shifted v.disk (512 * blockRef v.disk v.inode k)) inodeNo j ↔
    ∃ x : Item, entryAt v.disk v.inode k j = x.entry ∧ x.Ordinary ∧ x.iNo = inodeNo
  first : sc.isDirFirstBlock = true ↔ k = 0

/-- One block is read and scanned. -/
theorem DirShape.scan (dir : DirShape part n v) (lt : k < 140) (has : blockRef v.disk v.inode k ≠ 0) (inodeNo : Nat) :
    ∃ sc, (List.range 21).foldlM (scanEntry (shifted v.disk (512 * blockRef v.disk v.inode k)) inodeNo) ⟨none, 0, false⟩ =
      .ok sc ∧ BlockScanned v inodeNo k sc := by
  have entry : ∀ j, decodeDirent (shifted v.disk (512 * blockRef v.disk v.inode k)) 0 j = entryAt v.disk v.inode k j :=
    fun j => decodeDirent_shifted _ _ _
  have hits : ∀ {j}, HitAt (shifted v.disk (512 * blockRef v.disk v.inode k)) inodeNo j ↔
      ∃ x : Item, entryAt v.disk v.inode k j = x.entry ∧ x.Ordinary ∧ x.iNo = inodeNo := by
    intro j
    rw [HitAt]
    simp only [entry]
  have used : ∀ j, j < 21 → (decodeDirent (shifted v.disk (512 * blockRef v.disk v.inode k)) 0 j).Dead ∨
      ∃ x : Item, decodeDirent (shifted v.disk (512 * blockRef v.disk v.inode k)) 0 j = x.entry := by
    intro j ltj
    rw [entry]
    exact dir.used k j lt ltj has
  have once : ∀ j j', j < 21 → j' < 21 → HitAt (shifted v.disk (512 * blockRef v.disk v.inode k)) inodeNo j →
      HitAt (shifted v.disk (512 * blockRef v.disk v.inode k)) inodeNo j' → j = j' := by
    intro j j' ltj ltj' hit hit'
    obtain ⟨x, ex, ordx, isx⟩ := hits.1 hit
    obtain ⟨y, ey, ordy, isy⟩ := hits.1 hit'
    exact (dir.numbers k j x k j' y ⟨lt, ltj, has, ex⟩ ⟨lt, ltj', has, ey⟩ ordx ordy (isx.trans isy.symm)).2
  obtain ⟨sc, ran⟩ := scan_returns used once 21 (by omega)
  have scanned := scan_spec used 21 sc (by omega) ran
  refine ⟨sc, ran, scanned, hits, ?_⟩
  rw [scanned.first]
  constructor
  · rintro ⟨j, x, ltj, e, isDot⟩
    rw [entry] at e
    exact dir.dots k j x ⟨lt, ltj, has, e⟩ (Item.not_ordinary.2 (.inl isDot))
  · rintro rfl
    obtain ⟨x, at_, isDot⟩ := dir.dot
    exact ⟨0, x, by omega, (entry 0).trans at_.entry, isDot⟩

/-- The entry found goes, unless it is the last one of an indirect block. -/
theorem deleteFound_returns (lay : Layout part n) (dir : DirShape part n v)
    (refs : ∀ k, k < 140 → all k = blockRef v.disk v.inode k) {sc : BlockScan} {j : Nat} (lt : k < 140)
    (has : blockRef v.disk v.inode k ≠ 0) (scan : BlockScanned v inodeNo k sc) (found : sc.entryFound = some j) :
    (AloneIn v inodeNo k ∧ ∀ buf, deleteFound part v all buf k j sc = .error .diverge) ∨
      (¬ AloneIn v inodeNo k ∧ ∀ buf, ∃ v', deleteFound part v all buf k j sc = .ok v') := by
  have block := dir.blocks.block k (by omega) has
  have entry : ∀ {j y}, ItemAt v k j y →
      decodeDirent (shifted v.disk (512 * blockRef v.disk v.inode k)) 0 j = Item.entry y := fun at_ => by
    rw [decodeDirent_shifted]; exact at_.entry
  have toItem : ∀ {j y}, j < 21 → decodeDirent (shifted v.disk (512 * blockRef v.disk v.inode k)) 0 j = Item.entry y →
      ItemAt v k j y := fun ltj e => ⟨lt, ltj, has, by rw [decodeDirent_shifted] at e; exact e⟩
  obtain ⟨ltj, hit⟩ := scan.scanned.found j found
  obtain ⟨x, ex, ord, number⟩ := scan.hits.1 hit
  have was : ItemAt v k j x := ⟨lt, ltj, has, ex⟩
  have counted : 1 ≤ sc.entryCnt := by
    by_contra zero
    exact scan.scanned.zero (by omega) j ltj ⟨x, entry was, ord⟩
  have size : direntSize ≤ v.inode.iSize := by
    have some := Finset.card_pos.2 ⟨(k, j), mem_usedSlots.2 ⟨x, was⟩⟩
    have sized := dir.sized
    rw [Sized] at sized
    simp only [direntSize] at *
    omega
  -- outside the first block every entry counts
  have alone : 0 < k → (sc.entryCnt = 1 ↔ ∀ j' y, ItemAt v k j' y → j' = j) := by
    intro pos
    have ordinary : ∀ {j' y}, ItemAt v k j' y → y.Ordinary := fun at_ => by
      by_contra dots
      have := dir.dots _ _ _ at_ dots
      omega
    constructor
    · intro one j' y at_
      exact scan.scanned.one one j' j at_.slot ltj ⟨y, entry at_, ordinary at_⟩ ⟨x, entry was, ord⟩
    · intro only
      by_contra more
      obtain ⟨a, b, lta, ltb, ne, ⟨y, ey, -⟩, z, ez, -⟩ := scan.scanned.several (by omega)
      exact ne ((only a y (toItem lta ey)).trans (only b z (toItem ltb ez)).symm)
  have store : ∀ w : Vnode, w.inode.iSize = v.inode.iSize →
      ∃ v', (do
        assertThat (part.sb.dirEntrySize ≤ w.inode.iSize)
        let disk ← inodeSync part w.disk { w.inode with iSize := w.inode.iSize - part.sb.dirEntrySize }
        return (⟨disk, w.blockBitmap, { w.inode with iSize := w.inode.iSize - part.sb.dirEntrySize }⟩ : Vnode) : Exec Vnode) =
          .ok v' := by
    intro w same
    rw [assertThat_of (show part.sb.dirEntrySize ≤ w.inode.iSize by rw [same, lay.dirEntrySize]; exact size), ok_bind,
      inodeSync_returns lay.tableFits]
    exact ⟨_, rfl⟩
  simp only [deleteFound, eraseEntry, assertThat_of counted, ok_bind, refs k lt]
  by_cases last : sc.entryCnt = 1 ∧ sc.isDirFirstBlock = false
  · have pos : 0 < k := by
      rcases Nat.eq_zero_or_pos k with zero | pos
      · rw [scan.first.2 zero] at last
        exact absurd last.2 (by decide)
      · exact pos
    have only := (alone pos).1 last.1
    obtain ⟨w, reclaimed, inode⟩ := reclaimBlock_returns lay dir.map block
    simp only [if_pos last, reclaimed, ok_bind]
    by_cases direct : k < 12
    · refine .inr ⟨fun h => by have := h.indirect; omega, fun buf => ?_⟩
      rw [if_pos direct]
      exact store { w with inode := w.inode.setSec k 0 } (by rw [inode]; rfl)
    · refine .inl ⟨⟨by omega, j, x, was, ord, number, only⟩, fun buf => ?_⟩
      rw [if_neg direct]
      rfl
  · have transfer : TransferOk (blockRef v.disk v.inode k) 1 := transferOk_one.2 (dir.onDisk k (by omega))
    simp only [if_neg last, ideWrite_of transfer, ok_bind]
    refine .inr ⟨fun h => ?_, fun buf => store { v with disk := _ } rfl⟩
    have indirect := h.indirect
    obtain ⟨j', y, at_, ordy, isy, only⟩ := h.entry
    obtain ⟨-, rfl⟩ := dir.numbers _ _ _ _ _ _ was at_ ord ordy (number.trans isy.symm)
    refine last ⟨(alone (by omega)).2 only, ?_⟩
    rw [Bool.eq_false_iff]
    intro first
    have := scan.first.1 first
    omega

/-- The loop over the blocks returns, unless it comes to an indirect block with the entry alone. -/
theorem deleteBlocks_returns (lay : Layout part n) (dir : DirShape part n v)
    (refs : ∀ k, k < 140 → all k = blockRef v.disk v.inode k) : ∀ l : List Nat, (∀ k ∈ l, k < 140) →
      ((∃ k ∈ l, AloneIn v inodeNo k) ∧ deleteBlocks part v all inodeNo l = .error .diverge) ∨
        ((∀ k ∈ l, ¬ AloneIn v inodeNo k) ∧ ∃ r, deleteBlocks part v all inodeNo l = .ok r) := by
  intro l
  induction l with
  | nil => exact fun _ => .inr ⟨by simp, _, rfl⟩
  | cons k rest ih =>
    intro bound
    have lt := bound k List.mem_cons_self
    -- the rest of the blocks, when this one has no such entry
    have next : ¬ AloneIn v inodeNo k →
        ((∃ k' ∈ k :: rest, AloneIn v inodeNo k') ∧ deleteBlocks part v all inodeNo rest = .error .diverge) ∨
          ((∀ k' ∈ k :: rest, ¬ AloneIn v inodeNo k') ∧ ∃ r, deleteBlocks part v all inodeNo rest = .ok r) := by
      intro notHere
      obtain ⟨⟨k', mem, alone⟩, ran⟩ | ⟨none, ran⟩ := ih fun k' mem => bound k' (List.mem_cons_of_mem _ mem)
      · exact .inl ⟨⟨k', List.mem_cons_of_mem _ mem, alone⟩, ran⟩
      · refine .inr ⟨fun k' mem => ?_, ran⟩
        rcases List.mem_cons.1 mem with rfl | mem
        · exact notHere
        · exact none k' mem
    simp only [deleteBlocks, refs k lt]
    by_cases has : blockRef v.disk v.inode k = 0
    · rw [if_pos has]
      refine next fun alone => ?_
      obtain ⟨j, x, at_, -⟩ := alone.entry
      exact at_.has has
    · have slots : 512 / part.sb.dirEntrySize = 21 := by
        rw [lay.dirEntrySize]
        rfl
      have transfer : TransferOk (blockRef v.disk v.inode k) 1 := transferOk_one.2 (dir.onDisk k (by omega))
      obtain ⟨sc, ran, scan⟩ := dir.scan lt has inodeNo
      rw [if_neg has, ideRead_of transfer, ok_bind, slots, ran, ok_bind]
      cases found : sc.entryFound with
      | none =>
        refine next fun alone => ?_
        obtain ⟨j, x, at_, ord, number, -⟩ := alone.entry
        exact scan.scanned.missed found j at_.slot (scan.hits.2 ⟨x, at_.entry, ord, number⟩)
      | some j =>
        obtain ⟨alone, diverges⟩ | ⟨notHere, returns⟩ := deleteFound_returns lay dir refs lt has scan found
        · refine .inl ⟨⟨k, List.mem_cons_self, alone⟩, ?_⟩
          simp only [diverges]
          rfl
        · obtain ⟨w, deleted⟩ := returns (shifted v.disk (512 * blockRef v.disk v.inode k))
          refine .inr ⟨fun k' mem alone => notHere ?_, (true, w), ?_⟩
          · -- the number is that of one entry only
            obtain ⟨ltj, hit⟩ := scan.scanned.found j found
            obtain ⟨x, ex, ord, number⟩ := scan.hits.1 hit
            obtain ⟨j', y, at_, ordy, isy, -⟩ := alone.entry
            obtain ⟨rfl, -⟩ := dir.numbers k j x k' j' y ⟨lt, ltj, has, ex⟩ at_ ord ordy (number.trans isy.symm)
            exact alone
          · simp only [deleted, ok_bind]
            rfl

/-- **`delete_dir_entry`** returns, unless the entry stands alone in an indirect block. -/
theorem deleteDirEntry_returns (lay : Layout part n) (dir : DirShape part n v) (inodeNo : Nat) :
    ((∃ k, AloneIn v inodeNo k) ∧ deleteDirEntry part v inodeNo = .error .diverge) ∨
      ((¬ ∃ k, AloneIn v inodeNo k) ∧ ∃ r, deleteDirEntry part v inodeNo = .ok r) := by
  have table : ∃ all, allBlocks v.disk v.inode = .ok all := allBlocks_returns fun _ => dir.onDisk 140 (by omega)
  obtain ⟨all, collected⟩ := table
  obtain ⟨-, refs⟩ := allBlocks_ok collected
  rw [deleteDirEntry, collected, ok_bind]
  obtain ⟨⟨k, -, alone⟩, diverges⟩ | ⟨none, returns⟩ := deleteBlocks_returns lay dir refs (List.range 140) fun k mem =>
    List.mem_range.1 mem
  · exact .inl ⟨⟨k, alone⟩, diverges⟩
  · refine .inr ⟨?_, returns⟩
    rintro ⟨k, alone⟩
    obtain ⟨j, x, at_, -⟩ := alone.entry
    exact none k (List.mem_range.2 at_.block) alone

end Returns

/-- **`delete_dir_entry`** returns, with the blocks it has to free freed, exactly if the entry
does not stand alone in an indirect block. -/
theorem deletes_iff {part : Partition} {n : Nat} {v : Vnode} (lay : Layout part n) (dir : DirShape part n v)
    (inodeNo : Nat) : Deletes part v inodeNo ↔ ¬ ∃ k, AloneIn v inodeNo k := by
  constructor
  · rintro ⟨fuel, ok, v', deleted, -⟩
    rw [deleteDirEntryWithin_eq] at deleted
    obtain ⟨-, diverges⟩ | ⟨notAlone, -⟩ := deleteDirEntry_returns lay dir inodeNo
    · rw [diverges] at deleted
      cases deleted
    · exact notAlone
  · intro notAlone
    obtain ⟨alone, -⟩ | ⟨-, ⟨ok, v'⟩, ran⟩ := deleteDirEntry_returns lay dir inodeNo
    · exact absurd alone notAlone
    · refine ⟨0, ok, v', ?_, fun k alone => absurd ⟨k, alone⟩ notAlone⟩
      rw [deleteDirEntryWithin_eq]
      exact ran

theorem DirWf.dirShape {part : Partition} {n selfNo parentNo : Nat} {v : Vnode} (wf : DirWf part n v selfNo parentNo)
    (map : BlockMap part n v.blockBitmap) (sized : Sized v) : DirShape part n v := by
  obtain ⟨x, at_, isDot, -⟩ := wf.dot
  exact ⟨map, wf.blocks, wf.onDisk, wf.used, ⟨x, at_, isDot⟩, fun k j y at_ dots => (wf.slots.dots k j y at_ dots).1,
    wf.numbers, sized⟩

/-- The file `f` is entered and deleted. -/
theorem deletes_small : ∃ v v', syncDirEntry smallPartition smallRoot itemF.entry = .ok (true, v) ∧
    deleteDirEntry smallPartition v 1 = .ok (true, v') ∧ DirShape smallPartition 388 v ∧ Deletes smallPartition v 1 := by
  have ran : returns (syncDirEntry smallPartition smallRoot itemF.entry) (fun x =>
      x.1 && decide (x.2.inode.sec 12 = 0) && returns (deleteDirEntry smallPartition x.2 1) Prod.fst) = true := by
    decide
  obtain ⟨⟨ok, v⟩, entered, found⟩ := returns_true.1 ran
  simp only [Bool.and_eq_true, decide_eq_true_eq] at found
  obtain ⟨⟨rfl, table⟩, deleted⟩ := found
  obtain ⟨⟨_, v'⟩, deleted, rfl⟩ := returns_true.1 deleted
  have inv := (DirInv.init smallPartition_layout smallRoot_new).step smallPartition_layout
    (.inserted (by decide) (by simp) (by simp) entered)
  have sound := (DirSound.init smallPartition_layout smallRoot_new).call smallPartition_layout (.sync (by decide) entered)
  have dir := inv.wf.dirShape inv.map sound.sized
  refine ⟨v, v', entered, deleted, dir, (deletes_iff smallPartition_layout dir 1).2 ?_⟩
  rintro ⟨k, alone⟩
  obtain ⟨j, x, at_, -⟩ := alone.entry
  exact at_.has (blockRef_none alone.indirect at_.block table)

/-- A directory with one file, whose entry stands in the first indirect block, as after a
directory of 253 entries has lost all others. -/
def loneDir : Vnode where
  disk := splice (splice (splice zeros (512 * 613) 512 (dotsImage 0 0)) (512 * 614) 512 (wordsImage fun i => if i = 0 then 615 else 0))
    (512 * 615) direntSize itemF.entry.image
  blockBitmap := bitmapSet (bitmapSet ⟨512, formatBlockBitmap 388⟩ 1 true) 2 true
  inode := { (rootInode smallPartition).setSec 12 614 with iSize := 3 * direntSize }

theorem loneDir_refs : ∀ k, k < 141 → blockRef loneDir.disk loneDir.inode k =
    if k = 0 then 613 else if k = 12 then 615 else if k = 140 then 614 else 0 := by
  decide

def dotItem : Item := ⟨.dot, 0, true, by decide⟩

def dotDotItem : Item := ⟨.dotDot, 0, true, by decide⟩

theorem loneDir_entries : entryAt loneDir.disk loneDir.inode 0 0 = dotItem.entry ∧
    entryAt loneDir.disk loneDir.inode 0 1 = dotDotItem.entry ∧ entryAt loneDir.disk loneDir.inode 12 0 = itemF.entry := by
  refine ⟨decodeDirent_image _ ?_, decodeDirent_image _ ?_, decodeDirent_image _ ?_⟩ <;> decide

theorem loneDir_dead : (∀ j, j < 21 → 2 ≤ j → (entryAt loneDir.disk loneDir.inode 0 j).Dead) ∧
    ∀ j, j < 21 → 1 ≤ j → (entryAt loneDir.disk loneDir.inode 12 j).Dead := by
  unfold DirEntry.Dead
  decide

theorem loneDir_items {k j : Nat} {x : Item} : ItemAt loneDir k j x ↔
    (k = 0 ∧ j = 0 ∧ x = dotItem) ∨ (k = 0 ∧ j = 1 ∧ x = dotDotItem) ∨ (k = 12 ∧ j = 0 ∧ x = itemF) := by
  obtain ⟨isDot, isDotDot, isF⟩ := loneDir_entries
  obtain ⟨dead, dead'⟩ := loneDir_dead
  constructor
  · intro at_
    have has := at_.has
    have lt := at_.block
    rw [loneDir_refs k (by omega)] at has
    by_cases first : k = 0
    · subst first
      obtain rfl | rfl | later : j = 0 ∨ j = 1 ∨ 2 ≤ j := by omega
      · exact .inl ⟨rfl, rfl, Item.entry_inj (at_.entry.symm.trans isDot)⟩
      · exact .inr (.inl ⟨rfl, rfl, Item.entry_inj (at_.entry.symm.trans isDotDot)⟩)
      · exact absurd (at_.entry ▸ dead _ at_.slot (by omega)) x.not_dead
    · have isTwelve : k = 12 := by
        rw [if_neg first] at has
        by_contra other
        rw [if_neg other, if_neg (by omega)] at has
        exact has rfl
      subst isTwelve
      obtain rfl | later : j = 0 ∨ 1 ≤ j := by omega
      · exact .inr (.inr ⟨rfl, rfl, Item.entry_inj (at_.entry.symm.trans isF)⟩)
      · exact absurd (at_.entry ▸ dead' _ at_.slot (by omega)) x.not_dead
  · have first : blockRef loneDir.disk loneDir.inode 0 ≠ 0 := by simp [loneDir_refs 0 (by omega)]
    have other : blockRef loneDir.disk loneDir.inode 12 ≠ 0 := by simp [loneDir_refs 12 (by omega)]
    rintro (⟨rfl, rfl, rfl⟩ | ⟨rfl, rfl, rfl⟩ | ⟨rfl, rfl, rfl⟩)
    · exact ⟨by omega, by omega, first, isDot⟩
    · exact ⟨by omega, by omega, first, isDotDot⟩
    · exact ⟨by omega, by omega, other, isF⟩

theorem loneDir_shape : DirShape smallPartition 388 loneDir := by
  have map : BlockMap smallPartition 388 loneDir.blockBitmap :=
    (smallPartition_map.set (by omega) (by omega) true).set (by omega) (by omega) true
  have refs := loneDir_refs
  have start : smallPartition.sb.dataStartLba = 613 := rfl
  have set : ∀ i, i < 3 → loneDir.blockBitmap.Set i := by decide
  obtain ⟨isDot, isDotDot, isF⟩ := loneDir_entries
  obtain ⟨dead, dead'⟩ := loneDir_dead
  refine ⟨map, ⟨fun k lt has => ?_, fun k k' lt lt' has same => ?_⟩, fun k lt => ?_, fun k j lt ltj has => ?_,
    ⟨dotItem, loneDir_items.2 (.inl ⟨rfl, rfl, rfl⟩), rfl⟩, fun k j x at_ dots => ?_, ?_, ?_⟩
  · rw [refs k lt] at has ⊢
    split
    · exact ⟨0, by omega, rfl, set 0 (by omega)⟩
    · split
      · exact ⟨2, by omega, rfl, set 2 (by omega)⟩
      · rename_i notFirst notLast
        rw [if_neg notFirst, if_neg notLast] at has
        split
        · exact ⟨1, by omega, rfl, set 1 (by omega)⟩
        · rename_i noTable
          rw [if_neg noTable] at has
          exact absurd rfl has
  · rw [refs k lt] at has same
    rw [refs k' lt'] at same
    split_ifs at has same <;> omega
  · rw [refs k lt]
    simp only [maxLba]
    split_ifs <;> omega
  · rw [refs k (by omega)] at has
    by_cases first : k = 0
    · subst first
      obtain rfl | rfl | later : j = 0 ∨ j = 1 ∨ 2 ≤ j := by omega
      · exact .inr ⟨_, isDot⟩
      · exact .inr ⟨_, isDotDot⟩
      · exact .inl (dead _ ltj (by omega))
    · have isTwelve : k = 12 := by
        rw [if_neg first] at has
        by_contra other
        rw [if_neg other, if_neg (by omega)] at has
        exact has rfl
      subst isTwelve
      obtain rfl | later : j = 0 ∨ 1 ≤ j := by omega
      · exact .inr ⟨_, isF⟩
      · exact .inl (dead' _ ltj (by omega))
  · rcases loneDir_items.1 at_ with ⟨is, -⟩ | ⟨is, -⟩ | ⟨-, -, rfl⟩
    · exact is
    · exact is
    · exact absurd (by decide) dots
  · intro k j x k' j' y at_ at' ordx ordy _
    have ordinary : ∀ {k j x}, ItemAt loneDir k j x → x.Ordinary → k = 12 ∧ j = 0 := by
      intro k j x at_ ord
      rcases loneDir_items.1 at_ with ⟨-, -, rfl⟩ | ⟨-, -, rfl⟩ | ⟨rfl, rfl, -⟩
      · exact absurd rfl ord.1
      · exact absurd rfl ord.2
      · exact ⟨rfl, rfl⟩
    obtain ⟨rfl, rfl⟩ := ordinary at_ ordx
    obtain ⟨rfl, rfl⟩ := ordinary at' ordy
    exact ⟨rfl, rfl⟩
  · have slots : usedSlots loneDir = {(0, 0), (0, 1), (12, 0)} := by
      ext ⟨k, j⟩
      simp only [mem_usedSlots, loneDir_items, Finset.mem_insert, Finset.mem_singleton, Prod.mk.injEq]
      constructor
      · rintro ⟨x, ⟨rfl, rfl, -⟩ | ⟨rfl, rfl, -⟩ | ⟨rfl, rfl, -⟩⟩ <;> simp
      · rintro (⟨rfl, rfl⟩ | ⟨rfl, rfl⟩ | ⟨rfl, rfl⟩)
        · exact ⟨dotItem, by simp⟩
        · exact ⟨dotDotItem, by simp⟩
        · exact ⟨itemF, by simp⟩
    rw [Sized, slots]
    rfl

/-- Deleting the file never returns. -/
theorem deletion_diverges : DirShape smallPartition 388 loneDir ∧ ¬ Deletes smallPartition loneDir 1 := by
  refine ⟨loneDir_shape, ?_⟩
  rintro ⟨fuel, ok, v', deleted, -⟩
  rw [deleteDirEntryWithin_eq] at deleted
  have alone : ∃ k, AloneIn loneDir 1 k := by
    refine ⟨12, by omega, 0, itemF, loneDir_items.2 (by simp), by decide, rfl, fun j y at_ => ?_⟩
    rcases loneDir_items.1 at_ with ⟨is, -⟩ | ⟨is, -⟩ | ⟨-, is, -⟩
    · cases is
    · cases is
    · exact is
  obtain ⟨-, diverges⟩ | ⟨notAlone, -⟩ := deleteDirEntry_returns smallPartition_layout loneDir_shape 1
  · rw [diverges] at deleted
    cases deleted
  · exact notAlone alone

end Sparrow
