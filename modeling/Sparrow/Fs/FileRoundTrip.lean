import Sparrow.Fs.FileLimits
import Sparrow.Userprog.Boot

/-!
# Writing a file and reading it back

What accepted writes have put into a new file is read back from it (`Holds.readsBack`), and no block of another inode
changes. Each write ends with `inode_sync`, which reads and writes through the `io_buf` of one sector that `file_write`
has given it. The record of every sixth or seventh inode lies across two sectors: there `inode_sync` runs over the
buffer (`fileRoundTrip_iff`).
-/

namespace Sparrow
set_option autoImplicit false

/-- The bytes that writes put into a new file are the bytes reads get back from it. -/
structure RoundTrips (part : Partition) (n : Nat) (me : Option Nat) (s : Fs) (fdIdx addr : Nat) : Prop where
  write : ∀ data t buf count, Writes part me fdIdx s data t → data.length + count < 139 * 512 →
    Enough n (t.vnode addr) count → ∃ u, fileWrite part me t fdIdx buf count = .ok (some count, u)
  apart : ∀ data t buf count r u, Writes part me fdIdx s data t → fileWrite part me t fdIdx buf count = .ok (some r, u) →
    ∀ other : Inode, (∀ lba, Owns (blockRef t.disk other) lba →
        DataBlock part n t.blockBitmap lba ∧ ¬ Owns (blockRef t.disk (t.inodes addr)) lba) →
      ∀ lba, Owns (blockRef t.disk other) lba → SameSector t.disk u.disk lba
  read : ∀ data t, Writes part me fdIdx s data t → 0 < data.length → data.length < 139 * 512 → ReadsBack me t addr data

section RoundTrip

variable {part : Partition} {n : Nat} {me : Option Nat} {s t u : Fs} {fdIdx addr count r : Nat} {buf : Image} {data : List Byte}

/-- A write that went through has an inode in one sector. -/
theorem Holds.oneSector (lay : Layout part n) (holds : Holds part n me s fdIdx addr data)
    (h : fileWrite part me s fdIdx buf count = .ok (some r, t)) : OneSector ((s.inodes addr).iNo % 256) := by
  obtain ⟨-, ⟨no, -⟩ | ⟨v', fdPos', wrote, -⟩⟩ := fileWrite_ok holds.file h
  · cases no
  obtain ⟨-, -, no | ⟨-, written⟩⟩ := writeFile_ok lay holds.map holds.wf wrote
  · cases no
  have one := writeFile_oneSector wrote
  rwa [written.inode] at one

/-- The writes leave the number of the inode. -/
theorem Holds.number (lay : Layout part n) (new : NewFile part n me s fdIdx addr) (run : Writes part me fdIdx s data t) :
    (t.inodes addr).iNo = (s.inodes addr).iNo := by
  induction run with
  | none => rfl
  | write before h ih =>
    have written := ((Holds.writes lay new before).write lay h).1
    exact (congrArg Inode.iNo written.inode).trans ih

theorem Holds.heapOk (holds : Holds part n me s fdIdx addr data) : HeapOk s := by
  simp [HeapOk, Fs.mallocOk, Fs.malloc, holds.heap]

/-- Without a free block nothing is written to a new file. -/
theorem NewFile.noWrite (new : NewFile part n me s fdIdx addr) (lay : Layout part n) (full : FullMap n s.blockBitmap) :
    fileWrite part me s fdIdx buf count ≠ .ok (some r, t) := by
  intro h
  obtain ⟨-, ⟨no, -⟩ | ⟨v', fdPos', wrote, -⟩⟩ := fileWrite_ok new.file h
  · cases no
  have noBlock := (writeFile_noBlock lay wrote new.map (new.secs 0) full).1
  cases noBlock

theorem NewFile.writes_full (new : NewFile part n me s fdIdx addr) (lay : Layout part n) (full : FullMap n s.blockBitmap)
    (run : Writes part me fdIdx s data t) : t = s ∧ data = [] := by
  induction run with
  | none => exact ⟨rfl, rfl⟩
  | write _ h ih =>
    obtain ⟨rfl, -⟩ := ih
    exact absurd h (new.noWrite lay full)

theorem NewFile.noBlocks (new : NewFile part n me s fdIdx addr) : fileBlocks (s.vnode addr).inode = 0 := if_pos (new.secs 0)

/-- A new file needs one block for its first byte. -/
theorem NewFile.enough_one (new : NewFile part n me s fdIdx addr) : Enough n (s.vnode addr) 1 ↔ ¬ FullMap n s.blockBitmap := by
  have size : (s.vnode addr).inode.iSize = 0 := new.size
  have one : blocksWanted (s.vnode addr) 1 = 1 := by
    rw [blocksWanted, new.noBlocks, size]
    rfl
  have free : 0 < s.blockBitmap.clear n ↔ ¬ FullMap n s.blockBitmap := by
    rw [Bitmap.clear_pos]
    simp only [FullMap, not_forall, exists_prop]
  rw [Enough, one, ← free]
  rfl

/-- **The round trip** holds of a new file exactly if the record of its inode lies in one sector, or nothing can be
written for want of a block. -/
theorem fileRoundTrip_iff (lay : Layout part n) (drive : OnDrive part) (new : NewFile part n me s fdIdx addr) :
    RoundTrips part n me s fdIdx addr ↔ OneSector ((s.inodes addr).iNo % 256) ∨ FullMap n s.blockBitmap := by
  constructor
  · intro trips
    by_contra neither
    obtain ⟨two, free⟩ := not_or.1 neither
    obtain ⟨u, wrote⟩ := trips.write [] s zeros 1 .none (by decide) (new.enough_one.2 free)
    exact two (new.holds.oneSector lay wrote)
  intro condition
  refine ⟨fun data t buf count run small enough => ?_, fun data t buf count r u run h => (Holds.writes lay new run).write_apart lay h,
    fun data t run => (Holds.writes lay new run).readsBack⟩
  have holds := Holds.writes lay new run
  obtain one | full := condition
  · have size : (t.vnode addr).inode.iSize = data.length := holds.size
    have below : (t.vnode addr).inode.iSize + count < 512 * 140 := by omega
    rw [← Holds.number lay new run] at one
    obtain ⟨v', fdPos', wrote⟩ :=
      writeFile_returns lay drive holds.map holds.wf one below enough (t.fileTable fdIdx).fdPos buf
    have low : addU32 (t.inodes addr).iSize count ≤ 71680 := by
      rw [addU32_of_lt (by rw [holds.size]; omega), holds.size]
      omega
    rw [fileWrite_eq holds.file holds.reach low holds.heapOk, wrote, ok_bind]
    exact ⟨_, rfl⟩
  · -- the first block of the file is wanting
    obtain ⟨rfl, -⟩ := new.writes_full lay full run
    have wanted : 0 < blocksWanted (t.vnode addr) count := by
      rw [blocksWanted, new.noBlocks]
      omega
    obtain ⟨i, lt, clear⟩ := Bitmap.clear_pos.1 (Nat.lt_of_lt_of_le wanted enough)
    exact absurd (full i lt) clear

/-- Three bytes written, the last two read back. -/
theorem fileRoundTrip_small :
    ∃ t u dst, fileWrite smallPartition none smallFile 3 (fun i => BitVec.ofNat 8 (i + 65)) 3 = .ok (some 3, t) ∧
      fileRead none (t.setFile 3 ⟨1, oRdwr, .inode 0⟩) 3 (fun _ => 0#8) 9 = .ok (some 2, dst, u) ∧
      (List.range 2).map dst = [66#8, 67#8] := by
  have trips := (fileRoundTrip_iff smallPartition_layout smallPartition_onDrive smallFile_new).2 (.inl (by decide))
  obtain ⟨t, wrote⟩ := trips.write [] smallFile (fun i => BitVec.ofNat 8 (i + 65)) 3 .none (by decide) (smallFile_enough (by decide))
  obtain ⟨r, dst, u, read, end_, bytes⟩ := trips.read _ t (.write .none wrote) (by decide) (by decide) 1 9 (by decide) (by decide) 3
    oRdwr (fun _ => 0#8)
  cases r with
  | none => exact absurd (end_.1 rfl).1 (by decide)
  | some size =>
    obtain ⟨isSize, slice, -⟩ := bytes size rfl
    have two : size = 2 := isSize
    subst two
    exact ⟨t, u, dst, wrote, read, slice⟩

/-- The main thread creates the files `/a` to `/f`, one after the other, and keeps the last open. -/
def sixFiles : List (Nat × Call) :=
  ([0x61#8, 0x62#8, 0x63#8, 0x64#8, 0x65#8].flatMap fun c => [(2, .open [slash, c] (oCreat ||| oRdwr)), (2, .close 3)]) ++
    [(2, .open pathF (oCreat ||| oRdwr))]

/-- The last of them is a new file in slot 3, and its number is 6. -/
def sixthFile (part : Partition) (s : Fs) : Bool :=
  decide ((s.fileTable 3).fdInode = .inode 6 ∧ (s.inodes 6).iNo = 6 ∧ (s.inodes 6).iSize = 0 ∧
    (∀ k : Fin 13, (s.inodes 6).sec k = 0) ∧ s.mallocs = [] ∧ s.pool 6 = none) &&
  decide (s.blockBitmap.btmpBytesLen = part.sb.blockBitmapSects * 512 ∧ part.sb.blockBitmapSects = 1 ∧ s.blockBitmap.Set 0) &&
  (List.range' 1 511).all fun k => s.blockBitmap.bits k == 0xff#8

theorem sixthFile_new {s : Fs} (h : sixthFile part s = true) : NewFile part 8 none s 3 6 ∧ (s.inodes 6).iNo = 6 := by
  simp only [sixthFile, Bool.and_eq_true, decide_eq_true_eq, List.all_eq_true, beq_iff_eq] at h
  obtain ⟨⟨⟨file, number, size, secs, heap, pool⟩, len, sects, root⟩, ones⟩ := h
  refine ⟨⟨file, .inl pool, heap, ⟨len, root, fun i ge lt => ?_⟩, by omega, size, fun k => ?_⟩, number⟩
  · rw [sects] at lt
    exact Bitmap.set_of_ones (ones _ (List.mem_range'_1.2 ⟨by omega, by omega⟩))
  · by_cases lt : k < 13
    · exact secs ⟨k, lt⟩
    · rw [Inode.sec, dif_neg lt]

/-- The first write to inode 6 runs over `io_buf`, on a partition with room enough. -/
theorem sixthFile_overruns :
    ∃ part σ, freshRun 620 (fun _ _ _ _ => true) sixFiles = .ok (part, σ) ∧ NewFile part 8 none σ.fs 3 6 ∧
      (σ.fs.inodes 6).iNo = 6 ∧ sysWrite part 2 σ 3 zeros 1 = .error .undefined ∧ ¬ RoundTrips part 8 none σ.fs 3 6 := by
  have ran : returns (freshRun 620 (fun _ _ _ _ => true) sixFiles) (fun x => sixthFile x.1 x.2.fs &&
      stops (sysWrite x.1 2 x.2 3 zeros 1) .undefined && stops (fileWrite x.1 none x.2.fs 3 zeros 1) .undefined &&
        decide (¬ x.2.fs.blockBitmap.Set 4)) = true := by
    decide +kernel
  obtain ⟨⟨part, σ⟩, ran, found⟩ := returns_true.1 ran
  simp only [Bool.and_eq_true, stops_true, decide_eq_true_eq] at found
  obtain ⟨⟨⟨is, call⟩, overruns⟩, free⟩ := found
  obtain ⟨new, number⟩ := sixthFile_new is
  refine ⟨part, σ, ran, new, number, call, fun trips => ?_⟩
  obtain ⟨u, wrote⟩ := trips.write [] σ.fs zeros 1 .none (by decide) (new.enough_one.2 fun full => free (full 4 (by decide)))
  rw [overruns] at wrote
  cases wrote

end RoundTrip

end Sparrow
