import Sparrow.Fs.Inode

/-!
# The inode table

Slot `n` of the table is the 76 bytes at `slotAddr part n`. `inode_locate` cuts this
address into a sector and an offset; read or written as one or two whole sectors, the
bytes that move are those of the slot. `inodeSync_ok` and `inodeDelete_ok` say this once,
and everything above uses only them.
-/

namespace Sparrow
set_option autoImplicit false

/-- The byte address of slot `n` of the inode table. -/
def slotAddr (part : Partition) (n : Nat) : Nat := 512 * part.sb.inodeTableLba + inodeSize * n

/-- The inode stored in slot `n`. -/
def slot (part : Partition) (disk : Image) (n : Nat) : Inode := decodeInode disk (slotAddr part n)

/-- The whole inode table lies inside the partition and the disk. -/
structure TableFits (part : Partition) : Prop where
  inPart : part.sb.inodeTableLba + 608 ≤ part.startLba + part.secCnt
  onDisk : part.sb.inodeTableLba + 608 ≤ maxLba + 1

/-- Every `uint32_t` field is in range. -/
structure Inode.InRange (ino : Inode) : Prop where
  iNo : ino.iNo < 2 ^ 32
  iSize : ino.iSize < 2 ^ 32
  iSectors : ∀ k, ino.sec k < 2 ^ 32

/-- The fields of an inode that are kept on disk agree. -/
structure SameStored (a b : Inode) : Prop where
  iNo : a.iNo = b.iNo
  iSize : a.iSize = b.iSize
  iSectors : a.iSectors = b.iSectors

theorem SameStored.refl (a : Inode) : SameStored a a := ⟨rfl, rfl, rfl⟩

theorem SameStored.symm {a b : Inode} (h : SameStored a b) : SameStored b a :=
  ⟨h.iNo.symm, h.iSize.symm, h.iSectors.symm⟩

theorem SameStored.trans {a b c : Inode} (h : SameStored a b) (h' : SameStored b c) : SameStored a c :=
  ⟨h.iNo.trans h'.iNo, h.iSize.trans h'.iSize, h.iSectors.trans h'.iSectors⟩

theorem SameStored.sec {a b : Inode} (h : SameStored a b) (k : Nat) : a.sec k = b.sec k := by
  simp only [Inode.sec, h.iSectors]

section Locate

variable {part : Partition} {n : Nat} {pos : InodePosition}

/-- Where `inode_locate` puts slot `n`: the sectors it names contain the slot. -/
structure Located (part : Partition) (n : Nat) (pos : InodePosition) : Prop where
  number : n < 4096
  addr : 512 * pos.secLba + pos.offSize = slotAddr part n
  inside : pos.offSize + inodeSize ≤ 512 * pos.secs
  last : pos.secLba + pos.secs ≤ part.sb.inodeTableLba + 608
  few : pos.secs = 1 ∨ pos.secs = 2

theorem inodeLocate_ok (h : inodeLocate part.sb n = .ok pos) : Located part n pos := by
  simp only [inodeLocate, bind_ok, assertThat_ok, pure_ok, exists_const] at h
  obtain ⟨lt, rfl⟩ := h
  -- the table ends with its last slot: 4096 slots of 76 bytes are 608 sectors
  have ends : n * inodeSize + inodeSize ≤ 608 * 512 := by simp only [inodeSize]; omega
  have addr : inodeSize * n = n * inodeSize := Nat.mul_comm _ _
  have size : inodeSize = 76 := rfl
  generalize n * inodeSize = off at *
  refine ⟨lt, ?_, ?_, ?_, ?_⟩
  · simp only [slotAddr]; omega
  all_goals simp only [InodePosition.secs, decide_eq_true_eq]; split <;> omega

/-- One sector takes part for the inodes that do not cross its end. -/
theorem inodeLocate_secs (h : inodeLocate part.sb n = .ok pos) : 512 * pos.secs ≤ 512 ↔ OneSector n := by
  simp only [inodeLocate, bind_ok, assertThat_ok, pure_ok, exists_const] at h
  obtain ⟨-, rfl⟩ := h
  simp only [InodePosition.secs, OneSector, decide_eq_true_eq]
  split <;> omega

theorem inodeLocate_of_lt (part : Partition) (lt : n < 4096) : ∃ pos, inodeLocate part.sb n = .ok pos := by
  simp only [inodeLocate, assertThat_of lt, ok_bind]
  exact ⟨_, rfl⟩

/-- Both driver calls on a located slot go through when the table fits. -/
theorem Located.transfer (loc : Located part n pos) (fits : TableFits part) : TransferOk pos.secLba pos.secs := by
  have last := loc.last
  have disk := fits.onDisk
  rcases loc.few with e | e <;> rw [e] at last ⊢ <;> refine ⟨?_, ?_, ?_⟩ <;> omega

theorem Located.inPartition (loc : Located part n pos) (fits : TableFits part) :
    pos.secLba ≤ part.startLba + part.secCnt := by
  have last := loc.last
  have h := fits.inPart
  omega

/-- Reading the sectors, replacing the slot and writing them back replaces the slot. -/
theorem Located.rewrite (loc : Located part n pos) (disk src : Image) :
    splice disk (512 * pos.secLba) (512 * pos.secs)
        (splice (shifted disk (512 * pos.secLba)) pos.offSize inodeSize src) =
      splice disk (slotAddr part n) inodeSize src := by
  rw [splice_shifted loc.inside, loc.addr]

end Locate

section Words

variable {part : Partition} {disk : Image} {ino : Inode} {n : Nat}

/-- Decoding depends on the bytes of the slot only. -/
theorem decodeInode_congr {m m' : Image} {a a' : Nat} (same : ∀ i, i < inodeSize → m' (a' + i) = m (a + i)) :
    decodeInode m' a' = decodeInode m a := by
  have word : ∀ o, o + 4 ≤ inodeSize → word32 m' (a' + o) = word32 m (a + o) := by
    intro o ho
    apply word32_congr
    intro i hi
    have := same (o + i) (by omega)
    rw [Nat.add_assoc, Nat.add_assoc]
    exact this
  have secs : ∀ i : Fin 13, word32 m' (a' + 16 + 4 * i.val) = word32 m (a + 16 + 4 * i.val) := by
    intro i
    rw [Nat.add_assoc, Nat.add_assoc]
    exact word _ (by have := i.isLt; simp only [inodeSize]; omega)
  simp only [inodeSize] at word
  simp only [decodeInode, secs, word 4 (by omega), word 8 (by omega), word 12 (by omega)]
  have := word 0 (by omega)
  simp only [Nat.add_zero] at this
  rw [this]

/-- The inode whose bytes are the image of `ino`. -/
theorem decode_image {a : Nat} (range : ino.InRange) (bytes : ∀ i, i < inodeSize → disk (a + i) = ino.pure.image i) :
    let d := decodeInode disk a
    SameStored d ino ∧ d.writeDeny = false ∧ d.iOpenCnts = 0 := by
  have word : ∀ j, 4 * j + 4 ≤ inodeSize → word32 disk (a + 4 * j) = ino.pure.word j % 2 ^ 32 := by
    intro j hj
    rw [← word32_wordsImage]
    apply word32_congr
    intro i hi
    rw [Nat.add_assoc]
    exact bytes _ (by omega)
  simp only [inodeSize] at word
  refine ⟨⟨?_, ?_, ?_⟩, ?_, ?_⟩
  · have := word 0 (by omega)
    simp only [Nat.mul_zero, Nat.add_zero] at this
    rw [decodeInode, this]
    exact Nat.mod_eq_of_lt range.iNo
  · rw [decodeInode, word 1 (by omega)]
    exact Nat.mod_eq_of_lt range.iSize
  · funext i
    have lt := i.isLt
    have e : a + 16 + 4 * i.val = a + 4 * (i.val + 4) := by omega
    show word32 disk (a + 16 + 4 * i.val) = _
    rw [e, word (i.val + 4) (by omega)]
    have := range.iSectors i.val
    simp only [Inode.sec, lt, dif_pos] at this
    simp only [Inode.word, Inode.pure, Inode.sec, lt, dif_pos]
    exact Nat.mod_eq_of_lt this
  · rw [decodeInode, word 3 (by omega)]
    rfl
  · rw [decodeInode, word 2 (by omega)]
    rfl

/-- What a slot holds after an inode was stored in it. -/
theorem decode_stored (range : ino.InRange) (a : Nat) :
    let d := decodeInode (splice disk a inodeSize ino.pure.image) a
    SameStored d ino ∧ d.writeDeny = false ∧ d.iOpenCnts = 0 :=
  decode_image range fun _ hi => splice_at hi

/-- The inode read through its position is the one in the slot. -/
theorem Located.decode {pos : InodePosition} (loc : Located part n pos) :
    decodeInode (shifted disk (512 * pos.secLba)) pos.offSize = slot part disk n := by
  apply decodeInode_congr
  intro i _
  rw [← loc.addr, Nat.add_assoc]
  rfl

/-- Distinct slots of the table share no byte. -/
theorem slots_disjoint (part : Partition) {m : Nat} (ne : m ≠ n) :
    slotAddr part m + inodeSize ≤ slotAddr part n ∨ slotAddr part n + inodeSize ≤ slotAddr part m := by
  simp only [slotAddr, inodeSize]
  omega

end Words

section Calls

variable {part : Partition} {disk disk' : Image} {ino : Inode} {n : Nat}

/-- **`inode_sync`** replaces the slot whose number is the low byte of `i_no`. -/
theorem inodeSync_ok (h : inodeSync part disk ino = .ok disk') :
    disk' = splice disk (slotAddr part (ino.iNo % 256)) inodeSize ino.pure.image := by
  simp only [inodeSync, bind_ok, assertThat_ok, ideRead_ok, ideWrite_ok, exists_and_left, exists_const] at h
  obtain ⟨pos, located, -, buf, ⟨-, rfl⟩, -, rfl⟩ := h
  exact (inodeLocate_ok located).rewrite disk _

theorem inodeSync_returns (fits : TableFits part) (disk : Image) (ino : Inode) :
    inodeSync part disk ino = .ok (splice disk (slotAddr part (ino.iNo % 256)) inodeSize ino.pure.image) := by
  have lt : ino.iNo % 256 < 4096 := by omega
  obtain ⟨pos, located⟩ := inodeLocate_of_lt part lt
  have loc := inodeLocate_ok located
  have ok := loc.transfer fits
  simp only [inodeSync, located, ok_bind, assertThat_of (loc.inPartition fits), ideRead, ideWrite,
    assertThat_of ok, pure, Except.pure]
  rw [loc.rewrite]

/-- Through a buffer of one sector it does so for the inodes in one sector only. -/
theorem inodeSyncThrough_ok (h : inodeSyncThrough 512 part disk ino = .ok disk') :
    OneSector (ino.iNo % 256) ∧ inodeSync part disk ino = .ok disk' := by
  simp only [inodeSyncThrough, bind_ok, assertThat_ok, defined_ok, exists_and_left, exists_const] at h
  obtain ⟨pos, located, -, room, synced⟩ := h
  exact ⟨(inodeLocate_secs located).1 room, synced⟩

theorem inodeSyncThrough_returns (fits : TableFits part) (one : OneSector (ino.iNo % 256)) (disk : Image) :
    inodeSyncThrough 512 part disk ino = .ok (splice disk (slotAddr part (ino.iNo % 256)) inodeSize ino.pure.image) := by
  obtain ⟨pos, located⟩ := inodeLocate_of_lt part (show ino.iNo % 256 < 4096 by omega)
  have loc := inodeLocate_ok located
  rw [inodeSyncThrough, located, ok_bind, assertThat_of (loc.inPartition fits), ok_bind,
    defined_of ((inodeLocate_secs located).2 one), ok_bind, inodeSync_returns fits]

theorem inodeDelete_returns (fits : TableFits part) (disk : Image) (low : n < 4096) :
    ∃ disk', inodeDelete part disk n = .ok disk' := by
  obtain ⟨pos, located⟩ := inodeLocate_of_lt part low
  have loc := inodeLocate_ok located
  have transfer := loc.transfer fits
  rw [inodeDelete, located, ok_bind, assertThat_of (loc.inPartition fits), ok_bind, ideRead_of transfer, ok_bind,
    ideWrite_of transfer]
  exact ⟨_, rfl⟩

/-- **`inode_delete`** zeroes the slot. -/
theorem inodeDelete_ok (h : inodeDelete part disk n = .ok disk') :
    n < 4096 ∧ disk' = splice disk (slotAddr part n) inodeSize (fun _ => 0#8) := by
  simp only [inodeDelete, bind_ok, assertThat_ok, ideRead_ok, ideWrite_ok, exists_and_left, exists_const] at h
  obtain ⟨pos, located, -, buf, ⟨-, rfl⟩, -, rfl⟩ := h
  have loc := inodeLocate_ok located
  rw [fill_eq_splice]
  exact ⟨loc.number, loc.rewrite disk _⟩

end Calls

section RoundTrip

variable {part : Partition} {disk : Image} {ino : Inode} {n : Nat}

/-- `inode_open` of a number that is not in `open_inodes` reads the slot. -/
theorem inodeOpen_miss {me : Option Nat} {s : Fs} (fits : TableFits part) (lt : n < 4096)
    (miss : findOpen me s n s.openInodes = .ok none) (heap : s.mallocOk = true) (heap' : s.malloc.mallocOk = true) :
    ∃ t, inodeOpen part me s n = .ok (s.nextAddr, t) ∧
      t.inodes s.nextAddr = { slot part s.disk n with iOpenCnts := 1 } := by
  obtain ⟨pos, located⟩ := inodeLocate_of_lt part lt
  have loc := inodeLocate_ok located
  simp only [inodeOpen, miss, ok_bind, located, mustMalloc, defined_of heap, defined_of heap', pure,
    Except.pure, ideRead, assertThat_of (loc.transfer fits)]
  refine ⟨_, rfl, ?_⟩
  rw [← loc.decode]
  simp [Fs.setInode, Fs.malloc]

/-- An inode written by `inode_sync` is the one a later `inode_open` reads, and every
other slot of the table keeps its bytes. -/
def RoundTrip (part : Partition) (disk : Image) (ino : Inode) : Prop :=
  ∃ disk', inodeSync part disk ino = .ok disk' ∧
    (∀ (me : Option Nat) (s : Fs), s.disk = disk' → s.mallocOk = true → s.malloc.mallocOk = true →
      findOpen me s ino.iNo s.openInodes = .ok none →
      ∃ addr t, inodeOpen part me s ino.iNo = .ok (addr, t) ∧
        SameStored (t.inodes addr) ino ∧ (t.inodes addr).writeDeny = false) ∧
    ∀ m, m < 4096 → m ≠ ino.iNo → ∀ i, i < inodeSize → disk' (slotAddr part m + i) = disk (slotAddr part m + i)

/-- The slot already holds the bytes `inode_sync` would write. -/
def SlotHolds (part : Partition) (disk : Image) (n : Nat) (ino : Inode) : Prop :=
  ∀ i, i < inodeSize → disk (slotAddr part n + i) = ino.pure.image i

/-- Nothing outside the slot written changes. -/
theorem sync_frame {m : Nat} (ne : m ≠ n) (src : Image) {i : Nat} (hi : i < inodeSize) :
    splice disk (slotAddr part n) inodeSize src (slotAddr part m + i) = disk (slotAddr part m + i) := by
  apply splice_out
  have := slots_disjoint part ne
  omega

/-- A slot other than the one written holds the same inode. -/
theorem slot_frame {m : Nat} (ne : m ≠ n) (src : Image) :
    slot part (splice disk (slotAddr part n) inodeSize src) m = slot part disk m :=
  decodeInode_congr fun _ hi => sync_frame ne src hi

/-- The round trip of an inode whose number fits the `uint8_t`. -/
theorem roundTrip_of_lt (fits : TableFits part) (range : ino.InRange) (lt : ino.iNo < 256) :
    RoundTrip part disk ino := by
  have low : ino.iNo % 256 = ino.iNo := Nat.mod_eq_of_lt lt
  refine ⟨_, inodeSync_returns fits disk ino, ?_, ?_⟩
  · intro me s written heap heap' miss
    obtain ⟨t, opened, is⟩ := inodeOpen_miss fits (by omega) miss heap heap'
    obtain ⟨stored, deny, -⟩ := decode_stored range (slotAddr part ino.iNo)
    rw [slot, written, low] at is
    refine ⟨_, t, opened, ?_, ?_⟩ <;> rw [is]
    · exact ⟨stored.iNo, stored.iSize, stored.iSectors⟩
    · exact deny
  · intro m _ ne i hi
    rw [low]
    exact sync_frame ne _ hi

/-- A larger number writes the slot of its low byte, which keeps its bytes only if it
held them already. -/
theorem slotHolds_of_roundTrip (fits : TableFits part) (ge : 256 ≤ ino.iNo) (trip : RoundTrip part disk ino) :
    SlotHolds part disk (ino.iNo % 256) ino := by
  obtain ⟨disk', written, -, kept⟩ := trip
  rw [inodeSync_returns fits] at written
  cases written
  intro i hi
  rw [← kept (ino.iNo % 256) (by omega) (by omega) i hi, splice_in (by omega) (by omega)]
  congr 1; omega

/-- A larger number leaves its own slot as it was, so that is what is read back. -/
theorem slot_of_roundTrip (fits : TableFits part) (lt : ino.iNo < 4096) (ge : 256 ≤ ino.iNo)
    (trip : RoundTrip part disk ino) :
    SameStored (slot part disk ino.iNo) ino ∧ (slot part disk ino.iNo).writeDeny = false := by
  obtain ⟨disk', written, read, -⟩ := trip
  rw [inodeSync_returns fits] at written
  cases written
  let s : Fs := ⟨splice disk (slotAddr part (ino.iNo % 256)) inodeSize ino.pure.image, ⟨0, fun _ => 0⟩, ⟨0, fun _ => 0⟩,
    fun _ => inodeInit 0, fun _ => none, 0, [], 0, fun _ => File.empty, []⟩
  obtain ⟨addr, t, opened, same, deny⟩ := read none s rfl rfl rfl rfl
  obtain ⟨t', opened', is⟩ := inodeOpen_miss (s := s) fits lt rfl rfl rfl
  rw [opened'] at opened
  cases opened
  rw [is, slot_frame (by omega)] at same deny
  exact ⟨⟨same.iNo, same.iSize, same.iSectors⟩, deny⟩

/-- When nothing has to change, what is read back is what was there. -/
theorem roundTrip_of_held (fits : TableFits part) (lt : ino.iNo < 4096)
    (held : SlotHolds part disk (ino.iNo % 256) ino) (same : SameStored (slot part disk ino.iNo) ino)
    (deny : (slot part disk ino.iNo).writeDeny = false) : RoundTrip part disk ino := by
  have unchanged : splice disk (slotAddr part (ino.iNo % 256)) inodeSize ino.pure.image = disk := by
    funext x
    simp only [splice]
    split
    · rename_i inside
      rw [← held _ (by omega)]
      congr 1; omega
    · rfl
  refine ⟨disk, by rw [inodeSync_returns fits, unchanged], ?_, fun m _ _ i _ => rfl⟩
  intro me s written heap heap' miss
  obtain ⟨t, opened, is⟩ := inodeOpen_miss fits lt miss heap heap'
  rw [written] at is
  refine ⟨_, t, opened, ?_, ?_⟩ <;> rw [is]
  · exact ⟨same.iNo, same.iSize, same.iSectors⟩
  · exact deny

/-- **The inode table round trip.** `inode_sync` and `inode_open` agree exactly for the
numbers a `uint8_t` can hold; for a larger number only when the disk already held both
the inode in its own slot and its bytes in the slot of the low byte. -/
theorem inodeSync_roundTrip_iff (fits : TableFits part) (range : ino.InRange) (lt : ino.iNo < 4096) :
    RoundTrip part disk ino ↔
      ino.iNo < 256 ∨ (SlotHolds part disk (ino.iNo % 256) ino ∧
        SameStored (slot part disk ino.iNo) ino ∧ (slot part disk ino.iNo).writeDeny = false) := by
  constructor
  · intro trip
    by_cases low : ino.iNo < 256
    · exact .inl low
    · exact .inr ⟨slotHolds_of_roundTrip fits (by omega) trip, slot_of_roundTrip fits lt (by omega) trip⟩
  · rintro (low | ⟨held, same, deny⟩)
    · exact roundTrip_of_lt fits range low
    · exact roundTrip_of_held fits lt held same deny

/-- A partition of 1000 sectors at sector 1, as `partition_format` lays it out. -/
def smallPartition : Partition :=
  ⟨1, 1000, ⟨0x19590318, 1000, 4096, 1, 3, 1, 4, 1, 5, 608, 613, 0, 24⟩⟩

theorem smallPartition_fits : TableFits smallPartition := ⟨by decide, by decide⟩

theorem inodeInit_inRange {k : Nat} (lt : k < 2 ^ 32) : (inodeInit k).InRange :=
  ⟨lt, by simp [inodeInit], fun j => by simp [Inode.sec, inodeInit]⟩

theorem inodeSync_roundTrip_iff_small :
    RoundTrip smallPartition (fun _ => 0#8) (inodeInit 7) ↔
      (inodeInit 7).iNo < 256 ∨ (SlotHolds smallPartition (fun _ => 0#8) ((inodeInit 7).iNo % 256) (inodeInit 7) ∧
        SameStored (slot smallPartition (fun _ => 0#8) (inodeInit 7).iNo) (inodeInit 7) ∧
        (slot smallPartition (fun _ => 0#8) (inodeInit 7).iNo).writeDeny = false) :=
  inodeSync_roundTrip_iff smallPartition_fits (inodeInit_inRange (by decide)) (by decide)

/-- Storing inode 256 overwrites slot 0. -/
theorem inodeSync_256_overwrites :
    ¬ ∀ (part : Partition) (disk : Image) (ino : Inode),
      TableFits part → ino.InRange → ino.iNo < 4096 → RoundTrip part disk ino := by
  intro claim
  have trip := claim smallPartition (fun _ => 0#8) (inodeInit 256) smallPartition_fits
    (inodeInit_inRange (by decide)) (by decide)
  have held := slotHolds_of_roundTrip smallPartition_fits (by decide) trip 1 (by decide)
  exact absurd held (by decide)

end RoundTrip

end Sparrow
