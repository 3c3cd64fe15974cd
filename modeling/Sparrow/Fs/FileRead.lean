import Sparrow.Fs.FileWrite

/-!
# Reading a file back

`file_read` collects the addresses of the blocks between its two ends and copies sector
by sector. Of a file that accepted writes have built it returns the bytes they were given
(`Holds.readsBack`).
-/

namespace Sparrow
set_option autoImplicit false

section Loops

variable {disk : Image} {ino : Inode} {all : Nat → Nat}

/-- The addresses of the blocks `first .. last` are those of the inode. -/
theorem readBlocks_spec (first last : Nat) {m : Nat} (filled : Filled disk ino m) (lt : last < m)
    (few : last < 140) :
    ∃ all, readBlocks disk ino first last = .ok all ∧ ∀ k, first ≤ k → k ≤ last → all k = blockRef disk ino k := by
  have read : ideRead disk (ino.sec 12) 1 = .ok (shifted disk (512 * ino.sec 12)) :=
    ideRead_of (transferOk_one.2 filled.onDisk)
  have table : 12 ≤ last → ino.sec 12 ≠ 0 := fun ge => filled.table.2 (by omega)
  have indirect : ∀ k, 12 ≤ k → k ≤ last →
      (if k < 12 then 0 else word32 (shifted disk (512 * ino.sec 12)) (4 * (k - 12))) = blockRef disk ino k := by
    intro k ge le
    rw [if_neg (by omega), blockRef_indirect ge (by omega) (table (by omega))]
    rfl
  simp only [readBlocks, read, ok_bind]
  by_cases one : first = last
  · rw [if_pos one]
    by_cases low : last < 12
    · rw [if_pos low]
      refine ⟨_, rfl, fun k h1 h2 => ?_⟩
      rw [if_pos (by omega), blockRef_direct (by omega)]
    · rw [if_neg low]
      exact ⟨_, rfl, fun k h1 h2 => indirect k (by omega) h2⟩
  rw [if_neg one]
  by_cases low : last < 12
  · rw [if_pos low]
    refine ⟨_, rfl, fun k h1 h2 => ?_⟩
    rw [if_pos ⟨h1, h2⟩, blockRef_direct (by omega)]
  rw [if_neg low, assertThat_of (table (by omega))]
  by_cases across : first < 12
  · rw [if_pos across]
    refine ⟨_, rfl, fun k h1 h2 => ?_⟩
    dsimp only
    by_cases direct : k < 12
    · rw [if_pos ⟨h1, direct⟩, blockRef_direct direct]
    · rw [if_neg (by omega)]
      exact indirect k (by omega) h2
  · rw [if_neg across]
    exact ⟨_, rfl, fun k h1 h2 => indirect k (by omega) h2⟩

/-- **The loop of `file_read`.** -/
theorem readLoop_spec {size : Nat} :
    ∀ (fuel done fdPos left : Nat) (dst : Image), left ≤ fuel → done + left = size → fdPos + left ≤ 512 * 140 →
    (∀ k, Touches fdPos left k → all k ≤ maxLba) →
    ∃ dst', readLoop disk all size fuel done fdPos dst = .ok (dst', fdPos + left) ∧
      (∀ i, i < done → dst' i = dst i) ∧
      ∀ i, i < left → dst' (done + i) = disk (512 * all ((fdPos + i) / 512) + (fdPos + i) % 512) := by
  intro fuel
  induction fuel with
  | zero =>
    intro done fdPos left dst le _ _ _
    obtain rfl : left = 0 := by omega
    exact ⟨dst, rfl, fun _ _ => rfl, fun i hi => by omega⟩
  | succ fuel ih =>
    intro done fdPos left dst le sum small onDisk
    rcases Nat.eq_zero_or_pos left with rfl | more
    · refine ⟨dst, ?_, fun _ _ => rfl, fun i hi => by omega⟩
      rw [readLoop, if_neg (by omega)]
      rfl
    have low : fdPos / 512 < 140 := by omega
    have sector := onDisk (fdPos / 512) ⟨more, Nat.le_refl _, by omega⟩
    simp only [readLoop, if_pos (show done < size by omega), defined_of low, ok_bind, ideRead_of (transferOk_one.2 sector)]
    obtain ⟨chunk, isChunk⟩ : ∃ chunk, chunk = if size - done < 512 - fdPos % 512 then size - done
      else 512 - fdPos % 512 := ⟨_, rfl⟩
    rw [← isChunk]
    have bounds : 0 < chunk ∧ fdPos % 512 + chunk ≤ 512 ∧ chunk ≤ left := by
      rw [isChunk]
      split <;> refine ⟨?_, ?_, ?_⟩ <;> omega
    obtain ⟨some, fits, le'⟩ := bounds
    rw [show addU32 fdPos chunk = fdPos + chunk from addU32_of_lt (by omega)]
    obtain ⟨dst', ran, before, rest⟩ := ih (done + chunk) (fdPos + chunk) (left - chunk)
      (splice dst done chunk (shifted (shifted disk (512 * all (fdPos / 512))) (fdPos % 512))) (by omega) (by omega) (by omega)
      (by
        rintro k ⟨h1, h2, h3⟩
        exact onDisk k ⟨by omega, by omega, by omega⟩)
    refine ⟨dst', by rw [ran, show fdPos + chunk + (left - chunk) = fdPos + left by omega], fun i hi => ?_, fun i hi => ?_⟩
    · rw [before i (by omega), splice_out (by omega)]
    · by_cases now : i < chunk
      · rw [before _ (by omega), splice_in (by omega) (by omega), Nat.add_sub_cancel_left,
          show (fdPos + i) / 512 = fdPos / 512 by omega]
        simp only [shifted]
        congr 1; omega
      · have := rest (i - chunk) (by omega)
        rwa [show done + chunk + (i - chunk) = done + i by omega, show fdPos + chunk + (i - chunk) = fdPos + i by omega]
          at this

end Loops

section ReadFile

variable {part : Partition} {n : Nat} {v : Vnode}

/-- **`file_read`** up to a position in the first 139 blocks: -1 at the end of the file, else the
bytes between the two positions. -/
theorem readFile_spec (wf : FileWf part n v) (dst : Image) {fdPos count : Nat} (written : v.inode.sec 0 ≠ 0)
    (small : ¬ (fdPos = v.inode.iSize ∧ 0 < count) → min (fdPos + count) v.inode.iSize < 139 * 512) (le : fdPos ≤ v.inode.iSize)
    (noWrap : fdPos + count < 2 ^ 32) :
    (fdPos = v.inode.iSize ∧ 0 < count ∧ readFile v.disk v.inode fdPos dst count = .ok (none, dst, fdPos)) ∨
      ∃ size dst', ¬ (fdPos = v.inode.iSize ∧ 0 < count) ∧ size = min (fdPos + count) v.inode.iSize - fdPos ∧
        readFile v.disk v.inode fdPos dst count = .ok (some size, dst', fdPos + size) ∧
        ∀ i, i < size → dst' i = byteAt v (fdPos + i) := by
  have sum : addU32 fdPos count = fdPos + count := addU32_of_lt noWrap
  have diff : subU32 v.inode.iSize fdPos = v.inode.iSize - fdPos := subU32_of_le le wf.range.iSize
  simp only [readFile, sum, diff]
  by_cases end_ : fdPos = v.inode.iSize ∧ 0 < count
  · left
    rw [if_pos (show v.inode.iSize < fdPos + count ∧ _ by
      refine ⟨by omega, ?_⟩
      rw [if_pos (by omega)]
      omega)]
    exact ⟨end_.1, end_.2, rfl⟩
  right
  have low := small end_
  obtain ⟨size, isSize⟩ : ∃ size, size = if v.inode.iSize < fdPos + count then v.inode.iSize - fdPos else count := ⟨_, rfl⟩
  have size_ : size = min (fdPos + count) v.inode.iSize - fdPos := by
    rw [isSize]
    split <;> omega
  have sum' : addU32 fdPos size = fdPos + size := addU32_of_lt (by omega)
  simp only [← isSize, sum']
  rw [if_neg (by omega), assertThat_of (show fdPos / 512 < 139 ∧ (fdPos + size) / 512 < 139 by omega), ok_bind]
  have blocks := fileBlocks_of_some written
  obtain ⟨all, collected, refs⟩ := readBlocks_spec (fdPos / 512) ((fdPos + size) / 512) wf.filled
    (by rw [blocks]; omega) (by omega)
  have onDisk : ∀ k, Touches fdPos size k → all k ≤ maxLba := by
    rintro k ⟨h1, h2, h3⟩
    rw [refs k h2 (by omega)]
    exact wf.onDisk k (by omega)
  obtain ⟨dst', ran, -, bytes⟩ := readLoop_spec size 0 fdPos size dst (Nat.le_refl _) (Nat.zero_add _) (by omega) onDisk
  rw [collected, ok_bind, ran, ok_bind]
  refine ⟨size, dst', end_, size_, rfl, fun i hi => ?_⟩
  have byte := bytes i hi
  rw [Nat.zero_add, refs _ (by omega) (by omega)] at byte
  exact byte

end ReadFile

section Files

variable {part : Partition} {n : Nat} {me : Option Nat} {s t u : Fs} {fdIdx addr : Nat}

/-- **`file_write`** on an open file: refused before anything was done, or `writeFile`. -/
theorem fileWrite_ok {buf : Image} {count : Nat} {r : Option Nat} (file : (s.fileTable fdIdx).fdInode = .inode addr)
    (h : fileWrite part me s fdIdx buf count = .ok (r, t)) :
    Reachable me s addr ∧ ((r = none ∧ (t = s ∨ t = s.malloc ∨ t = s.malloc.malloc)) ∨
      ∃ v' fdPos', writeFile part (s.vnode addr) (s.fileTable fdIdx).fdPos buf count = .ok (r, v', fdPos') ∧
        t = (s.malloc.malloc.setVnode addr v').setFile fdIdx { s.fileTable fdIdx with fdPos := fdPos' }) := by
  simp only [fileWrite, file, bind_ok, defined_ok, exists_const] at h
  obtain ⟨reach, h⟩ := h
  refine ⟨reach, ?_⟩
  split at h
  · rw [pure_ok] at h
    cases h
    exact .inl ⟨rfl, .inl rfl⟩
  split at h
  · rw [pure_ok] at h
    cases h
    exact .inl ⟨rfl, .inr (.inl rfl)⟩
  split at h
  · rw [pure_ok] at h
    cases h
    exact .inl ⟨rfl, .inr (.inr rfl)⟩
  simp only [bind_ok, pure_ok, Prod.exists] at h
  obtain ⟨r', v', fdPos', written, h⟩ := h
  cases h
  exact .inr ⟨v', fdPos', written, by rw [← file]⟩

/-- Successful calls of `file_write` on one slot of the file table, and the bytes they
were given. -/
inductive Writes (part : Partition) (me : Option Nat) (fdIdx : Nat) (s : Fs) : List Byte → Fs → Prop
  | none : Writes part me fdIdx s [] s
  | write {data : List Byte} {t u : Fs} {buf : Image} {count r : Nat} (before : Writes part me fdIdx s data t)
      (h : fileWrite part me t fdIdx buf count = .ok (some r, u)) :
      Writes part me fdIdx s (data ++ (List.range count).map buf) u

/-- An open file and the bytes it holds. -/
structure Holds (part : Partition) (n : Nat) (me : Option Nat) (s : Fs) (fdIdx addr : Nat) (data : List Byte) : Prop where
  file : (s.fileTable fdIdx).fdInode = .inode addr
  reach : Reachable me s addr
  heap : s.mallocs = []
  map : BlockMap part n s.blockBitmap
  wf : FileWf part n (s.vnode addr)
  size : (s.inodes addr).iSize = data.length
  bytes : ∀ pos, pos < data.length → some (byteAt (s.vnode addr) pos) = data[pos]?

/-- A regular file just created and opened: it has no byte and no block. -/
structure NewFile (part : Partition) (n : Nat) (me : Option Nat) (s : Fs) (fdIdx addr : Nat) : Prop where
  file : (s.fileTable fdIdx).fdInode = .inode addr
  reach : Reachable me s addr
  heap : s.mallocs = []
  map : BlockMap part n s.blockBitmap
  number : (s.inodes addr).iNo < 4096
  size : (s.inodes addr).iSize = 0
  secs : ∀ k, (s.inodes addr).sec k = 0

theorem NewFile.holds (new : NewFile part n me s fdIdx addr) : Holds part n me s fdIdx addr [] :=
  ⟨new.file, new.reach, new.heap, new.map,
    fileWf_empty (Nat.lt_trans new.number (by decide)) new.size new.secs, new.size, nofun⟩

/-- One write more. -/
theorem Holds.write (lay : Layout part n) {data : List Byte} {buf : Image} {count r : Nat}
    (holds : Holds part n me s fdIdx addr data) (h : fileWrite part me s fdIdx buf count = .ok (some r, t)) :
    Written part n (s.vnode addr) (t.vnode addr) buf count ∧ Holds part n me t fdIdx addr (data ++ (List.range count).map buf) := by
  obtain ⟨-, ⟨no, -⟩ | ⟨v', fdPos', wrote, rfl⟩⟩ := fileWrite_ok holds.file h
  · cases no
  obtain ⟨-, -, no | ⟨-, written⟩⟩ := writeFile_ok lay holds.map holds.wf wrote
  · cases no
  have vnode : ((s.malloc.malloc.setVnode addr v').setFile fdIdx { s.fileTable fdIdx with fdPos := fdPos' }).vnode addr = v' := by
    simp [Fs.vnode, Fs.setFile, Fs.setVnode, Fs.setInode]
  have inode : ((s.malloc.malloc.setVnode addr v').setFile fdIdx { s.fileTable fdIdx with fdPos := fdPos' }).inodes addr =
    v'.inode := congrArg Vnode.inode vnode
  have size : v'.inode.iSize = data.length + count := by
    rw [written.inode, ← holds.size]
    rfl
  rw [vnode]
  refine ⟨written, by simp [Fs.setFile, holds.file], holds.reach, ?_, written.grow.map, by rw [vnode]; exact written.wf, ?_, fun pos lt => ?_⟩
  · show List.tail (List.tail _) = []
    rw [holds.heap]
    rfl
  · rw [inode, size]
    simp
  · rw [vnode]
    by_cases old : pos < data.length
    · rw [written.old pos (by rw [← holds.size] at old; exact old), List.getElem?_append_left old]
      exact holds.bytes pos old
    · have len : (s.vnode addr).inode.iSize = data.length := holds.size
      simp only [List.length_append, List.length_map, List.length_range] at lt
      have new := written.new (pos - data.length) (by omega)
      rw [len, show data.length + (pos - data.length) = pos by omega] at new
      rw [new, List.getElem?_append_right (by omega)]
      simp [List.getElem?_range (show pos - data.length < count by omega)]

theorem Holds.writes (lay : Layout part n) {data : List Byte} (new : NewFile part n me s fdIdx addr)
    (run : Writes part me fdIdx s data t) : Holds part n me t fdIdx addr data := by
  induction run with
  | none => exact new.holds
  | write _ h ih => exact (ih.write lay h).2

/-- A slice of a list, byte by byte. -/
theorem map_range_eq_slice {data : List Byte} {dst : Image} {p size : Nat}
    (bytes : ∀ i, i < size → some (dst i) = data[p + i]?) : (List.range size).map dst = (data.take (p + size)).drop p := by
  apply List.ext_getElem?
  intro i
  by_cases lt : i < size
  · rw [List.getElem?_drop, List.getElem?_take_of_lt (by omega), ← bytes i lt]
    simp [lt]
  · rw [List.getElem?_eq_none (by simp; omega), List.getElem?_eq_none (by simp; omega)]

/-- What `file_read` promises of a file that holds `data`, at every position and through every slot of the file
table: the bytes there are, and -1 exactly at the end. -/
def ReadsBack (me : Option Nat) (t : Fs) (addr : Nat) (data : List Byte) : Prop :=
  ∀ p c, p ≤ data.length → p + c < 2 ^ 32 → ∀ rd flag dst,
    ∃ r dst' u, fileRead me (t.setFile rd ⟨p, flag, .inode addr⟩) rd dst c = .ok (r, dst', u) ∧
      (r = none ↔ p = data.length ∧ 0 < c) ∧
      ∀ size, r = some size → size = min (p + c) data.length - p ∧
        (List.range size).map dst' = (data.take (p + c)).drop p ∧ (u.fileTable rd).fdPos = p + size

/-- **`file_read`** of a file of less than 139 blocks. -/
theorem Holds.readsBack {data : List Byte} (holds : Holds part n me t fdIdx addr data) (nonempty : 0 < data.length)
    (small : data.length < 139 * 512) : ReadsBack me t addr data := by
  intro p c le noWrap rd flag dst
  have size : (t.vnode addr).inode.iSize = data.length := holds.size
  have wrote : (t.vnode addr).inode.sec 0 ≠ 0 := fun none => by
    have := holds.wf.empty none
    omega
  have file : (t.setFile rd ⟨p, flag, .inode addr⟩).fileTable rd = ⟨p, flag, .inode addr⟩ := by simp [Fs.setFile]
  have inode : (t.setFile rd ⟨p, flag, .inode addr⟩).inodes addr = (t.vnode addr).inode := rfl
  have heap : (t.setFile rd ⟨p, flag, .inode addr⟩).mallocOk = true := by simp [Fs.mallocOk, Fs.setFile, holds.heap]
  have heap' : (t.setFile rd ⟨p, flag, .inode addr⟩).malloc.mallocOk = true := by
    simp [Fs.mallocOk, Fs.malloc, Fs.setFile, holds.heap]
  have sum : addU32 p c = p + c := addU32_of_lt noWrap
  have diff : subU32 data.length p = data.length - p := subU32_of_le le (by omega)
  simp only [fileRead, file, inode, size, sum, diff, heap, heap', Bool.true_eq_false, if_false]
  rw [defined_of (show Reachable me (t.setFile rd ⟨p, flag, .inode addr⟩) addr from holds.reach), ok_bind]
  obtain ⟨end_, some, -⟩ | ⟨k, dst', notEnd, isSize, ran, bytes⟩ :=
      readFile_spec holds.wf dst wrote (fun _ => by rw [size]; omega) (by rw [size]; exact le) noWrap
  · rw [size] at end_
    rw [if_pos (by omega)]
    exact ⟨none, dst, _, rfl, ⟨fun _ => ⟨end_, some⟩, fun _ => rfl⟩, by rintro _ ⟨⟩⟩
  · rw [size] at notEnd isSize
    have disk : (t.setFile rd ⟨p, flag, .inode addr⟩).malloc.malloc.disk = (t.vnode addr).disk := rfl
    rw [if_neg (by omega), defined_of trivial, ok_bind, disk, ran, ok_bind]
    refine ⟨some k, dst', _, rfl, ⟨by rintro ⟨⟩, fun end_ => absurd end_ notEnd⟩, fun k' is => ?_⟩
    cases is
    refine ⟨isSize, ?_, by simp [Fs.setFile]⟩
    have slice : ∀ i, i < k → some (dst' i) = data[p + i]? := by
      intro i lt
      rw [bytes i lt]
      exact holds.bytes _ (by omega)
    rw [map_range_eq_slice slice]
    rcases Nat.le_total (p + c) data.length with fits | past
    · rw [show p + k = p + c by omega]
    · rw [List.take_of_length_le past, List.take_of_length_le (by omega)]
/-- **`file_write`** changes no block of another inode. -/
theorem Holds.write_apart (lay : Layout part n) {data : List Byte} {buf : Image} {count r : Nat}
    (holds : Holds part n me t fdIdx addr data) (h : fileWrite part me t fdIdx buf count = .ok (some r, u)) (other : Inode)
    (apart : ∀ lba, Owns (blockRef t.disk other) lba →
      DataBlock part n t.blockBitmap lba ∧ ¬ Owns (blockRef t.disk (t.inodes addr)) lba) :
    ∀ lba, Owns (blockRef t.disk other) lba → SameSector t.disk u.disk lba := by
  intro lba owns
  obtain ⟨block, notMine⟩ := apart lba owns
  have written := (holds.write lay h).1
  refine written.step.data lba block.ge ?_
  rintro ⟨some, k, lt, is⟩
  -- a block the file has got by this write was free before
  by_cases had : blockRef t.disk (t.inodes addr) k = 0
  · obtain ⟨i, -, -, is', clear⟩ := written.grow.free k lt had (by rw [is]; exact some)
    obtain ⟨j, -, is'', set⟩ := block
    exact clear ((show j = i by omega) ▸ set)
  · have kept := written.grow.kept k lt had
    exact notMine ⟨some, k, lt, kept.symm.trans is⟩

/-- A small partition with one open file, number 1, in slot 3. -/
def smallFile : Fs where
  disk := fun _ => 0#8
  blockBitmap := ⟨512, formatBlockBitmap 388⟩
  inodeBitmap := ⟨512, fun _ => 3#8⟩
  inodes := fun _ => inodeInit 1
  pool := fun _ => none
  nextAddr := 1
  openInodes := [0]
  rootDir := 0
  fileTable := fun i => if i = 3 then ⟨0, oRdwr, .inode 0⟩ else File.empty
  mallocs := []

theorem smallFile_new : NewFile smallPartition 388 none smallFile 3 0 := by
  refine ⟨rfl, .inl rfl, rfl, smallPartition_map, by decide, rfl, fun k => ?_⟩
  simp only [smallFile, inodeInit, Inode.sec]
  split <;> rfl

end Files

end Sparrow
