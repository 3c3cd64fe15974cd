import Mathlib.Logic.Function.Basic
import Sparrow.Fs.Alloc

/-!
# The blocks of an inode

An inode refers to up to 141 blocks: 12 direct ones, 128 through its table, and the table
itself. `blockRef` numbers them, the table last. `BlocksWf` says that the references are
data blocks whose bits are set, all different; `DiskStep` says which data sectors and which
inode slots a piece of code may write.
-/

namespace Sparrow
set_option autoImplicit false

/-- Reference `k` of an inode; 0 stands for none. Number 140 is the table. -/
def blockRef (disk : Image) (ino : Inode) (k : Nat) : Nat :=
  if k < 12 then ino.sec k
  else if k = 140 then ino.sec 12
  else if ino.sec 12 = 0 then 0
  else word32 disk (512 * ino.sec 12 + 4 * (k - 12))

/-- `lba` is a data block of the partition and its bit is set. -/
def DataBlock (part : Partition) (n : Nat) (b : Bitmap) (lba : Nat) : Prop :=
  ∃ i, i < n ∧ lba = part.sb.dataStartLba + i ∧ b.Set i

/-- The references of an inode are different data blocks. -/
structure BlocksWf (part : Partition) (n : Nat) (b : Bitmap) (ref : Nat → Nat) : Prop where
  block : ∀ k, k < 141 → ref k ≠ 0 → DataBlock part n b (ref k)
  inj : ∀ k k', k < 141 → k' < 141 → ref k ≠ 0 → ref k = ref k' → k = k'

/-- `lba` is one of the blocks referred to. -/
def Owns (ref : Nat → Nat) (lba : Nat) : Prop := lba ≠ 0 ∧ ∃ k, k < 141 ∧ ref k = lba

/-- What an inode gains when blocks are allocated for it: references that were empty now
name blocks that were free. -/
structure Grow (part : Partition) (n : Nat) (b b' : Bitmap) (ref ref' : Nat → Nat) : Prop where
  kept : ∀ k, k < 141 → ref k ≠ 0 → ref' k = ref k
  bits : ∀ i, b'.Set i ↔ b.Set i ∨ (i < n ∧ Owns ref' (part.sb.dataStartLba + i))
  free : ∀ k, k < 141 → ref k = 0 → ref' k ≠ 0 → ∃ i, 0 < i ∧ i < n ∧ ref' k = part.sb.dataStartLba + i ∧ ¬ b.Set i
  map : BlockMap part n b'
  wf : BlocksWf part n b' ref'

/-- The sector `lba` is the same on both disks. -/
def SameSector (disk disk' : Image) (lba : Nat) : Prop := ∀ i, i < 512 → disk' (512 * lba + i) = disk (512 * lba + i)

/-- Of the data sectors only those in `B`, of the inode slots only those in `N` are
written. -/
structure DiskFrame (part : Partition) (B N : Nat → Prop) (disk disk' : Image) : Prop where
  data : ∀ lba, part.sb.dataStartLba ≤ lba → ¬ B lba → SameSector disk disk' lba
  slots : ∀ m, m < 4096 → ¬ N m → ∀ i, i < inodeSize → disk' (slotAddr part m + i) = disk (slotAddr part m + i)

/-- The same, and the inode bitmap is not written either. -/
structure DiskStep (part : Partition) (B N : Nat → Prop) (disk disk' : Image) : Prop
    extends DiskFrame part B N disk disk' where
  inodeBits : SameSector disk disk' part.sb.inodeBitmapLba

/-- The block bitmap stored on disk. -/
def diskBits (part : Partition) (disk : Image) : Bitmap :=
  ⟨part.sb.blockBitmapSects * 512, shifted disk (512 * part.sb.blockBitmapLba)⟩

/-- The block bitmap on disk agrees with the one in memory, but for the bits in `X`. -/
def SyncedBut (part : Partition) (X : Nat → Prop) (disk : Image) (b : Bitmap) : Prop :=
  ∀ i, i < 4096 * part.sb.blockBitmapSects → ¬ X i → ((diskBits part disk).Set i ↔ b.Set i)

section Refs

variable {disk disk' : Image} {ino ino' : Inode} {all : Nat → Nat} {k : Nat}

theorem blockRef_direct (lt : k < 12) : blockRef disk ino k = ino.sec k := if_pos lt

theorem blockRef_table : blockRef disk ino 140 = ino.sec 12 := rfl

theorem blockRef_indirect (ge : 12 ≤ k) (lt : k < 140) (table : ino.sec 12 ≠ 0) :
    blockRef disk ino k = word32 disk (512 * ino.sec 12 + 4 * (k - 12)) := by
  rw [blockRef, if_neg (by omega), if_neg (by omega), if_neg table]

theorem blockRef_none (ge : 12 ≤ k) (lt : k < 140) (table : ino.sec 12 = 0) : blockRef disk ino k = 0 := by
  rw [blockRef, if_neg (by omega), if_neg (by omega), if_pos table]

/-- The references depend on `i_sectors` and the sector of the table. -/
theorem blockRef_congr (secs : ∀ j, ino'.sec j = ino.sec j)
    (table : ino.sec 12 ≠ 0 → SameSector disk disk' (ino.sec 12))
    (lt : k < 141) : blockRef disk' ino' k = blockRef disk ino k := by
  simp only [blockRef, secs]
  split
  · rfl
  split
  · rfl
  split
  · rfl
  · rename_i has
    apply word32_congr
    intro i hi
    rw [Nat.add_assoc]
    exact table has _ (by omega)

/-- The references after a direct one was changed. -/
theorem blockRef_setDirect {k₀ val : Nat} (direct : k₀ < 12)
    (secs : ∀ l, ino'.sec l = if l = k₀ then val else ino.sec l)
    (table : ino.sec 12 ≠ 0 → SameSector disk disk' (ino.sec 12)) (lt : k < 141) :
    blockRef disk' ino' k = Function.update (blockRef disk ino) k₀ val k := by
  by_cases e : k = k₀
  · rw [e, Function.update_self, blockRef_direct direct, secs, if_pos rfl]
  · rw [Function.update_of_ne e]
    have same : ∀ l, l ≠ k₀ → ino'.sec l = ino.sec l := fun l ne => (secs l).trans (if_neg ne)
    by_cases d : k < 12
    · rw [blockRef_direct d, blockRef_direct d, same k e]
    · simp only [blockRef, if_neg d, same 12 (by omega)]
      split
      · rfl
      split
      · rfl
      · rename_i has
        apply word32_congr
        intro i hi
        rw [Nat.add_assoc]
        exact table has _ (by omega)

/-- Word `k` of a table just written. -/
theorem word32_table {t : Nat} (ge : 12 ≤ k) (lt : k < 140) :
    word32 (splice disk (512 * t) (512 * 1) (tableImage all)) (512 * t + 4 * (k - 12)) = all k % 2 ^ 32 := by
  have word : word32 (tableImage all) (4 * (k - 12)) = all k % 2 ^ 32 := by
    rw [tableImage, word32_wordsImage]
    congr 2; omega
  rw [← word]
  apply word32_congr
  intro i hi
  rw [Nat.add_assoc, splice_at (by omega)]

/-- The references of an inode whose table was just written. -/
theorem blockRef_tableWritten (has : ino.sec 12 ≠ 0) (lt : k < 140) :
    blockRef (splice disk (512 * ino.sec 12) (512 * 1) (tableImage all)) ino k =
      if k < 12 then ino.sec k else all k % 2 ^ 32 := by
  by_cases direct : k < 12
  · rw [if_pos direct, blockRef_direct direct]
  · rw [if_neg direct, blockRef_indirect (by omega) lt has, word32_table (by omega) lt]

theorem allBlocks_ok (h : allBlocks disk ino = .ok all) :
    (ino.sec 12 ≠ 0 → ino.sec 12 ≤ maxLba) ∧ ∀ k, k < 140 → all k = blockRef disk ino k := by
  simp only [allBlocks] at h
  split at h
  · rename_i has
    simp only [bind_ok, ideRead_ok, pure_ok] at h
    obtain ⟨table, ⟨ok, rfl⟩, rfl⟩ := h
    refine ⟨fun _ => ok.1, fun k lt => ?_⟩
    dsimp only
    by_cases direct : k < 12
    · rw [if_pos direct, blockRef_direct direct]
    · rw [if_neg direct, blockRef_indirect (by omega) lt has]
      rfl
  · rename_i none
    simp only [ne_eq, not_not] at none
    rw [pure_ok] at h
    subst h
    refine ⟨fun has => absurd none has, fun k lt => ?_⟩
    dsimp only
    by_cases direct : k < 12
    · rw [if_pos direct, blockRef_direct direct]
    · rw [if_neg direct, blockRef_none (by omega) lt none]

theorem allBlocks_returns (table : ino.sec 12 ≠ 0 → ino.sec 12 ≤ maxLba) : ∃ all, allBlocks disk ino = .ok all := by
  simp only [allBlocks]
  split
  · rename_i has
    rw [ideRead_of (transferOk_one.2 (table has)), ok_bind]
    exact ⟨_, rfl⟩
  · exact ⟨_, rfl⟩

end Refs

section Wf

variable {part : Partition} {n : Nat} {b b' : Bitmap} {disk disk' : Image} {ino ino' : Inode} {lba k : Nat}

theorem DataBlock.mono (more : ∀ i, i < n → b.Set i → b'.Set i) (h : DataBlock part n b lba) : DataBlock part n b' lba := by
  obtain ⟨i, lt, is, set⟩ := h
  exact ⟨i, lt, is, more i lt set⟩

theorem DataBlock.ge (h : DataBlock part n b lba) : part.sb.dataStartLba ≤ lba := by
  obtain ⟨i, -, rfl, -⟩ := h
  omega

theorem DataBlock.pos (lay : Layout part n) (h : DataBlock part n b lba) : lba ≠ 0 := by
  have := h.ge
  have := lay.dataStartLba
  omega

theorem DataBlock.lt_pow (lay : Layout part n) (h : DataBlock part n b lba) : lba < 2 ^ 32 := by
  obtain ⟨i, lt, rfl, -⟩ := h
  have := lay.small
  omega

theorem owns_ref {ref : Nat → Nat} (lt : k < 141) (has : ref k ≠ 0) : Owns ref (ref k) := ⟨has, k, lt, rfl⟩

theorem Owns.mono {ref ref' : Nat → Nat} (kept : ∀ k, k < 141 → ref k ≠ 0 → ref' k = ref k) (owns : Owns ref lba) :
    Owns ref' lba := by
  obtain ⟨pos, k, lt, rfl⟩ := owns
  exact ⟨pos, k, lt, kept k lt pos⟩

theorem Owns.congr {ref ref' : Nat → Nat} (same : ∀ k, k < 141 → ref' k = ref k) : Owns ref' lba ↔ Owns ref lba :=
  and_congr_right fun _ => exists_congr fun k => and_congr_right fun lt => by rw [same k lt]

theorem BlocksWf.owned {ref : Nat → Nat} (wf : BlocksWf part n b ref) (owns : Owns ref lba) : DataBlock part n b lba := by
  obtain ⟨has, k, lt, rfl⟩ := owns
  exact wf.block k lt has

/-- Well-formed references survive every change that keeps them and their bits. -/
theorem BlocksWf.congr {ref ref' : Nat → Nat} (same : ∀ k, k < 141 → ref' k = ref k)
    (bits : ∀ i, Owns ref (part.sb.dataStartLba + i) → b.Set i → b'.Set i)
    (wf : BlocksWf part n b ref) : BlocksWf part n b' ref' := by
  refine ⟨fun k lt has => ?_, fun k k' lt lt' has e => ?_⟩
  · rw [same k lt] at has ⊢
    obtain ⟨i, hi, is, set⟩ := wf.block k lt has
    exact ⟨i, hi, is, bits i (is ▸ owns_ref lt has) set⟩
  · rw [same k lt] at has e
    rw [same k' lt'] at e
    exact wf.inj k k' lt lt' has e

/-- The fields of an inode with well-formed references fit their words. -/
theorem BlocksWf.inRange (lay : Layout part n) (wf : BlocksWf part n b (blockRef disk ino)) (number : ino.iNo < 2 ^ 32)
    (size : ino.iSize < 2 ^ 32) : ino.InRange := by
  have word : ∀ k, k < 141 → blockRef disk ino k < 2 ^ 32 := by
    intro k lt
    by_cases zero : blockRef disk ino k = 0
    · omega
    · exact (wf.block k lt zero).lt_pow lay
  refine ⟨number, size, fun k => ?_⟩
  rcases Nat.lt_trichotomy k 12 with direct | rfl | past
  · have := word k (by omega)
    rwa [blockRef_direct direct] at this
  · exact word 140 (by omega)
  · rw [Inode.sec_ge _ (by omega)]
    decide

end Wf

section Growth

variable {part : Partition} {n : Nat} {b b' b'' : Bitmap} {ref ref' ref'' : Nat → Nat}

theorem Grow.refl (map : BlockMap part n b) (wf : BlocksWf part n b ref) : Grow part n b b ref ref := by
  refine ⟨fun _ _ _ => rfl, fun i => ⟨.inl, fun h => ?_⟩, fun k _ zero has => absurd zero has, map, wf⟩
  rcases h with set | ⟨-, owns⟩
  · exact set
  · obtain ⟨j, -, is, set⟩ := wf.owned owns
    rwa [Nat.add_left_cancel is]

theorem Grow.mono (h : Grow part n b b' ref ref') {i : Nat} (set : b.Set i) : b'.Set i := (h.bits i).2 (.inl set)

theorem Grow.trans (h : Grow part n b b' ref ref') (h' : Grow part n b' b'' ref' ref'') :
    Grow part n b b'' ref ref'' := by
  have kept : ∀ k, k < 141 → ref k ≠ 0 → ref'' k = ref k := fun k lt has =>
    (h'.kept k lt (by rwa [h.kept k lt has])).trans (h.kept k lt has)
  refine ⟨kept, fun i => ?_, fun k lt zero has => ?_, h'.map, h'.wf⟩
  · rw [h'.bits, h.bits, or_assoc]
    refine or_congr_right ⟨?_, .inr⟩
    rintro (⟨lt, owns⟩ | new)
    · exact ⟨lt, owns.mono h'.kept⟩
    · exact new
  · by_cases mid : ref' k = 0
    · obtain ⟨i, pos, lt', is, clear⟩ := h'.free k lt mid has
      exact ⟨i, pos, lt', is, fun set => clear (h.mono set)⟩
    · obtain ⟨i, pos, lt', is, clear⟩ := h.free k lt zero mid
      exact ⟨i, pos, lt', by rw [h'.kept k lt mid, is], clear⟩

/-- A block it has now it had before, or the block was free. -/
theorem Grow.gained (h : Grow part n b b' ref ref') {lba : Nat} (owns : Owns ref' lba) :
    Owns ref lba ∨ ∃ i, lba = part.sb.dataStartLba + i ∧ ¬ b.Set i := by
  obtain ⟨has, k, lt, rfl⟩ := owns
  by_cases zero : ref k = 0
  · obtain ⟨i, -, -, is, clear⟩ := h.free k lt zero has
    exact .inr ⟨i, is, clear⟩
  · rw [h.kept k lt zero]
    exact .inl (owns_ref lt zero)

/-- References are compared below 141 only. -/
theorem Grow.congr (same : ∀ k, k < 141 → ref'' k = ref' k) (h : Grow part n b b' ref ref') :
    Grow part n b b' ref ref'' := by
  refine ⟨fun k lt has => (same k lt).trans (h.kept k lt has), fun i => ?_, fun k lt zero has => ?_, h.map, ?_⟩
  · rw [h.bits, Owns.congr same]
  · rw [same k lt] at has ⊢
    exact h.free k lt zero has
  · exact h.wf.congr same fun _ _ set => set

/-- One block allocated for the empty reference `k₀`. -/
theorem Grow.one (lay : Layout part n) (map : BlockMap part n b) (wf : BlocksWf part n b ref) (k₀ : Nat) {i : Nat}
    (lt : k₀ < 141) (empty : ref k₀ = 0) (pos : 0 < i) (inside : i < n) (clear : ¬ b.Set i) :
    Grow part n b (bitmapSet b i true) ref (Function.update ref k₀ (part.sb.dataStartLba + i)) := by
  have ds := lay.dataStartLba
  have mine : Function.update ref k₀ (part.sb.dataStartLba + i) k₀ = part.sb.dataStartLba + i := Function.update_self ..
  have rest : ∀ k, k ≠ k₀ → Function.update ref k₀ (part.sb.dataStartLba + i) k = ref k :=
    fun k ne => Function.update_of_ne ne ..
  have other : ∀ k, k < 141 → ref k ≠ part.sb.dataStartLba + i := by
    intro k ltk e
    obtain ⟨j, -, is, set⟩ := wf.block k ltk (by omega)
    exact clear ((show j = i by omega) ▸ set)
  refine ⟨fun k _ has => rest k ?_, fun j => ?_, fun k ltk zero has => ?_, map.set pos inside true,
    fun k ltk has => ?_, fun k k' ltk ltk' has e => ?_⟩
  · rintro rfl
    exact has empty
  · rw [set_bitmapSet]
    by_cases e : j = i
    · subst e
      simp only [if_true, true_iff]
      exact .inr ⟨inside, by omega, k₀, lt, mine⟩
    · rw [if_neg e]
      refine ⟨.inl, ?_⟩
      rintro (set | ⟨-, owns, k, ltk, is⟩)
      · exact set
      · by_cases h : k = k₀
        · rw [h, mine] at is
          omega
        · rw [rest k h] at is
          obtain ⟨l, -, is', set⟩ := wf.block k ltk (by omega)
          exact (show l = j by omega) ▸ set
  · by_cases e : k = k₀
    · rw [e, mine]
      exact ⟨i, pos, inside, rfl, clear⟩
    · rw [rest k e] at has
      exact absurd zero has
  · by_cases e : k = k₀
    · rw [e, mine]
      exact ⟨i, inside, rfl, by rw [set_bitmapSet, if_pos rfl]⟩
    · rw [rest k e] at has ⊢
      refine (wf.block k ltk has).mono fun j _ set => ?_
      rw [set_bitmapSet]
      split
      · rfl
      · exact set
  · by_cases h : k = k₀ <;> by_cases h' : k' = k₀
    · omega
    · rw [h, mine, rest k' h'] at e
      exact absurd e.symm (other k' ltk')
    · rw [h', mine, rest k h] at e
      exact absurd e (other k ltk)
    · rw [rest k h] at has e
      rw [rest k' h'] at e
      exact wf.inj k k' ltk ltk' has e

end Growth

section Steps

variable {part : Partition} {n : Nat} {B B' N N' : Nat → Prop} {disk disk' disk'' : Image}

theorem DiskFrame.refl : DiskFrame part B N disk disk := ⟨fun _ _ _ _ _ => rfl, fun _ _ _ _ _ => rfl⟩

theorem DiskFrame.trans (h : DiskFrame part B N disk disk') (h' : DiskFrame part B N disk' disk'') :
    DiskFrame part B N disk disk'' :=
  ⟨fun lba ge out i hi => (h'.data lba ge out i hi).trans (h.data lba ge out i hi),
    fun m lt out i hi => (h'.slots m lt out i hi).trans (h.slots m lt out i hi)⟩

theorem DiskFrame.mono (hB : ∀ x, B x → B' x) (hN : ∀ x, N x → N' x) (h : DiskFrame part B N disk disk') :
    DiskFrame part B' N' disk disk' :=
  ⟨fun lba ge out => h.data lba ge (fun b => out (hB _ b)), fun m lt out => h.slots m lt (fun b => out (hN _ b))⟩

/-- The slot of an inode that is not written keeps its inode. -/
theorem DiskFrame.slot_eq (h : DiskFrame part B N disk disk') {m : Nat} (lt : m < 4096) (out : ¬ N m) :
    slot part disk' m = slot part disk m :=
  decodeInode_congr (h.slots m lt out)

theorem DiskStep.refl : DiskStep part B N disk disk := ⟨.refl, fun _ _ => rfl⟩

theorem DiskStep.trans (h : DiskStep part B N disk disk') (h' : DiskStep part B N disk' disk'') :
    DiskStep part B N disk disk'' :=
  ⟨h.toDiskFrame.trans h'.toDiskFrame, fun i hi => (h'.inodeBits i hi).trans (h.inodeBits i hi)⟩

theorem DiskStep.mono (hB : ∀ x, B x → B' x) (hN : ∀ x, N x → N' x) (h : DiskStep part B N disk disk') :
    DiskStep part B' N' disk disk' :=
  ⟨h.toDiskFrame.mono hB hN, h.inodeBits⟩

/-- A write of one data sector. -/
theorem diskStep_data (lay : Layout part n) (disk buf : Image) {lba : Nat} (ge : part.sb.dataStartLba ≤ lba) :
    DiskStep part (fun x => x = lba) (fun _ => False) disk (splice disk (512 * lba) (512 * 1) buf) := by
  have h1 := lay.dataStartLba
  have h2 := lay.inodeTableLba
  refine ⟨⟨fun lba' ge' ne i hi => splice_out (by omega), fun m lt _ i hi => splice_out ?_⟩,
    fun i hi => splice_out (by omega)⟩
  simp only [slotAddr, inodeSize] at hi ⊢
  omega

/-- A write of one sector of the block bitmap. -/
theorem diskStep_bitmap (lay : Layout part n) {lba : Nat} {buf : Image} (lt : lba < part.sb.inodeBitmapLba) :
    DiskStep part (fun _ => False) (fun _ => False) disk (splice disk (512 * lba) (512 * 1) buf) := by
  have h1 := lay.dataStartLba
  have h2 := lay.inodeTableLba
  refine ⟨⟨fun lba' ge' _ i hi => splice_out (by omega), fun m _ _ i hi => splice_out ?_⟩,
    fun i hi => splice_out (by omega)⟩
  simp only [slotAddr, inodeSize] at hi ⊢
  omega

/-- A write of one inode slot. -/
theorem diskStep_slot (lay : Layout part n) (disk src : Image) {m : Nat} (lt : m < 4096) :
    DiskStep part (fun _ => False) (fun x => x = m) disk (splice disk (slotAddr part m) inodeSize src) := by
  have h1 := lay.dataStartLba
  have h2 := lay.inodeTableLba
  refine ⟨⟨fun lba ge _ i hi => splice_out ?_, fun m' _ ne i hi => sync_frame ne src hi⟩, fun i hi => splice_out ?_⟩
  all_goals
    simp only [slotAddr, inodeSize]
    omega

/-- A write of the inode bitmap. -/
theorem diskFrame_inodeBits (lay : Layout part n) (disk buf : Image) :
    DiskFrame part (fun _ => False) (fun _ => False) disk
      (splice disk (512 * part.sb.inodeBitmapLba) (512 * 1) buf) := by
  have h1 := lay.dataStartLba
  have h2 := lay.inodeTableLba
  refine ⟨fun lba' ge' _ i hi => splice_out (by omega), fun m _ _ i hi => splice_out ?_⟩
  simp only [slotAddr, inodeSize] at hi ⊢
  omega

/-- **`bitmap_sync`** of the bit of an inode: the inode bitmap has one sector. -/
theorem bitmapSync_inode {b : Bitmap} {f : Nat} (low : f < 4096)
    (h : bitmapSync disk part.sb.inodeBitmapLba b f = .ok disk') :
    disk' = splice disk (512 * part.sb.inodeBitmapLba) (512 * 1) b.bits := by
  have zero : f / 4096 = 0 := by omega
  simp only [bitmapSync, zero, ideWrite_ok, Nat.add_zero, Nat.zero_mul] at h
  rw [h.2]
  congr 1
  funext x
  simp only [shifted, Nat.zero_add]

/-- **`bitmap_sync`** of a data block's bit. -/
theorem syncBlock_ok (lay : Layout part n) {b : Bitmap} {i : Nat} (lt : i < n)
    (h : syncBlock part disk b (part.sb.dataStartLba + i) = .ok disk') :
    disk' = splice disk (512 * (part.sb.blockBitmapLba + i / 4096)) (512 * 1) (shifted b.bits (i / 4096 * 512)) := by
  simp only [syncBlock, bitmapSync, lay.index lt, ideWrite_ok] at h
  exact h.2

theorem Layout.bitmapSector (lay : Layout part n) {i : Nat} (lt : i < n) :
    part.sb.blockBitmapLba + i / 4096 < part.sb.inodeBitmapLba := by
  have h1 := lay.inodeBitmapLba
  have h2 := lay.sects
  omega

theorem syncBlock_step (lay : Layout part n) {b : Bitmap} {i : Nat} (lt : i < n)
    (h : syncBlock part disk b (part.sb.dataStartLba + i) = .ok disk') :
    DiskStep part (fun _ => False) (fun _ => False) disk disk' := by
  rw [syncBlock_ok lay lt h]
  exact diskStep_bitmap lay (lay.bitmapSector lt)

theorem inodeSync_step (lay : Layout part n) {ino : Inode} (h : inodeSync part disk ino = .ok disk') :
    DiskStep part (fun _ => False) (fun x => x = ino.iNo % 256) disk disk' := by
  rw [inodeSync_ok h]
  exact diskStep_slot lay _ _ (by omega)

/-- A write behind the block bitmap does not touch it. -/
theorem diskBits_behind (lay : Layout part n) {a k : Nat} {src : Image} (ge : 512 * part.sb.inodeBitmapLba ≤ a) {i : Nat}
    (inside : i < 4096 * part.sb.blockBitmapSects) :
    (diskBits part (splice disk a k src)).Set i ↔ (diskBits part disk).Set i := by
  have h1 := lay.inodeBitmapLba
  simp only [Bitmap.Set, bitmapScanTest, diskBits, shifted]
  rw [splice_out (by omega)]

theorem SyncedBut.behind (lay : Layout part n) {X : Nat → Prop} {b : Bitmap} {a k : Nat} {src : Image}
    (ge : 512 * part.sb.inodeBitmapLba ≤ a) (h : SyncedBut part X disk b) :
    SyncedBut part X (splice disk a k src) b := fun i inside out =>
  (diskBits_behind lay ge inside).trans (h i inside out)

/-- The bits of a bitmap sector just written are those in memory. -/
theorem diskBits_synced (lay : Layout part n) {b : Bitmap} {i : Nat} (lt : i < n)
    (h : syncBlock part disk b (part.sb.dataStartLba + i) = .ok disk') (j : Nat) :
    (diskBits part disk').Set j ↔ if j / 4096 = i / 4096 then b.Set j else (diskBits part disk).Set j := by
  rw [syncBlock_ok lay lt h]
  simp only [Bitmap.Set, bitmapScanTest, diskBits, shifted]
  by_cases same : j / 4096 = i / 4096
  · rw [if_pos same, splice_in (by omega) (by omega)]
    simp only [shifted]
    rw [show i / 4096 * 512 + (512 * part.sb.blockBitmapLba + j / 8 - 512 * (part.sb.blockBitmapLba + i / 4096)) = j / 8 by
      omega]
  · rw [if_neg same, splice_out (by omega)]

/-- A bit changed in memory and written at once; its whole sector agrees afterwards. -/
theorem SyncedBut.setSector (lay : Layout part n) {X : Nat → Prop} {b : Bitmap} {i : Nat} {val : Bool} (lt : i < n)
    (h : syncBlock part disk (bitmapSet b i val) (part.sb.dataStartLba + i) = .ok disk') (synced : SyncedBut part X disk b) :
    SyncedBut part (fun j => X j ∧ j / 4096 ≠ i / 4096) disk' (bitmapSet b i val) := by
  intro j inside out
  rw [diskBits_synced lay lt h]
  by_cases same : j / 4096 = i / 4096
  · rw [if_pos same]
  · rw [if_neg same, synced j inside (fun x => out ⟨x, same⟩), set_bitmapSet, if_neg (fun e => same (by rw [e]))]

theorem SyncedBut.mono {X X' : Nat → Prop} {b : Bitmap} (less : ∀ i, X i → X' i) (h : SyncedBut part X disk b) :
    SyncedBut part X' disk b := fun i inside out => h i inside fun x => out (less i x)

theorem SyncedBut.set (lay : Layout part n) {X : Nat → Prop} {b : Bitmap} {i : Nat} {val : Bool} (lt : i < n)
    (h : syncBlock part disk (bitmapSet b i val) (part.sb.dataStartLba + i) = .ok disk') (synced : SyncedBut part X disk b) :
    SyncedBut part X disk' (bitmapSet b i val) :=
  (synced.setSector lay lt h).mono fun _ x => x.1

end Steps

end Sparrow
