import Mathlib.Logic.Relation
import Sparrow.Fs.Layout

/-!
# Allocation of blocks

A block bitmap of a formatted partition has its first bit set, for the root directory,
and every bit behind its last block (`BlockMap`). This is all first fit needs in order to
stay inside the partition, and no call of the allocator or of `bitmap_set` at a block
handed out disturbs it.
-/

namespace Sparrow
set_option autoImplicit false

/-- The shape of the block bitmap in memory. -/
structure BlockMap (part : Partition) (n : Nat) (b : Bitmap) : Prop where
  len : b.btmpBytesLen = part.sb.blockBitmapSects * 512
  root : b.Set 0
  padding : ∀ i, n ≤ i → i < 4096 * part.sb.blockBitmapSects → b.Set i

section Blocks

variable {part : Partition} {n : Nat} {b b' : Bitmap} {r : Option Nat}

/-- **`block_bitmap_alloc`** takes the first free block, or finds none. -/
theorem blockBitmapAlloc_cases (lay : Layout part n) (map : BlockMap part n b)
    (h : blockBitmapAlloc part.sb b = (r, b')) :
    (r = none ∧ b' = b ∧ ∀ i, i < n → b.Set i) ∨
      ∃ i, 0 < i ∧ i < n ∧ ¬ b.Set i ∧ (∀ j, j < i → b.Set j) ∧
        r = some (part.sb.dataStartLba + i) ∧ b' = bitmapSet b i true := by
  have bits := lay.bits
  have small := lay.small
  simp only [blockBitmapAlloc] at h
  cases scan : bitmapScan b 1 with
  | none =>
    rw [scan] at h
    cases h
    refine .inl ⟨rfl, rfl, fun i hi => bitmapScan_one_none scan i ?_⟩
    rw [map.len]; omega
  | some i =>
    rw [scan] at h
    obtain ⟨inside, free, below⟩ := bitmapScan_one_some scan
    rw [map.len] at inside
    have lt : i < n := by
      by_contra ge
      exact free (map.padding i (by omega) (by omega))
    have pos : 0 < i := by
      rcases Nat.eq_zero_or_pos i with rfl | pos
      · exact absurd map.root free
      · exact pos
    have lba : addU32 part.sb.dataStartLba i = part.sb.dataStartLba + i := addU32_of_lt (by omega)
    simp only [lba] at h
    rw [if_neg (by omega)] at h
    cases h
    exact .inr ⟨i, pos, lt, free, below, rfl, rfl⟩

/-- The bit of a block is found again from its address. -/
theorem Layout.index (lay : Layout part n) {i : Nat} (lt : i < n) :
    subU32 (part.sb.dataStartLba + i) part.sb.dataStartLba = i := by
  have small := lay.small
  rw [subU32_of_le (by omega) (by omega)]
  omega

/-- Changing the bit of a block other than the root's keeps the shape. -/
theorem BlockMap.set (map : BlockMap part n b) {i : Nat} (pos : 0 < i) (lt : i < n) (v : Bool) :
    BlockMap part n (bitmapSet b i v) := by
  refine ⟨map.len, ?_, ?_⟩
  · rw [set_bitmapSet, if_neg (by omega)]
    exact map.root
  · intro j ge inside
    rw [set_bitmapSet, if_neg (by omega)]
    exact map.padding j ge inside

end Blocks

section Formatted

variable {part : Partition} {n : Nat} {disk : Image}

theorem Formatted.blockMap (lay : Layout part n) (fresh : Formatted part n disk) :
    BlockMap part n (mountedFs part disk).blockBitmap := by
  have bits := lay.bits
  have blocks := lay.blocks
  have set := fun i hi => formatBlockBitmap_set (b := (mountedFs part disk).blockBitmap) (i := i) blocks lay.sects
    fresh.blockBitmap hi
  refine ⟨rfl, (set 0 (by omega)).2 (.inl rfl), ?_⟩
  intro i ge inside
  exact (set i inside).2 (.inr ge)

/-- Only the root directory's block is taken. -/
theorem Formatted.free (lay : Layout part n) (fresh : Formatted part n disk) {i : Nat} (pos : 0 < i) (lt : i < n) :
    ¬ (mountedFs part disk).blockBitmap.Set i := by
  have bits := lay.bits
  rw [formatBlockBitmap_set lay.blocks lay.sects fresh.blockBitmap (by omega)]
  omega

theorem smallPartition_layout : Layout smallPartition 388 :=
  ⟨rfl, rfl, rfl, rfl, rfl, rfl, rfl, rfl, rfl, by decide, by decide⟩

theorem smallPartition_map : BlockMap smallPartition 388 ⟨512, formatBlockBitmap 388⟩ := by
  have set : ∀ i, i < 4096 * 1 → ((⟨512, formatBlockBitmap 388⟩ : Bitmap).Set i ↔ i = 0 ∨ 388 ≤ i) := fun i hi =>
    formatBlockBitmap_set (by decide) (by decide) (fun _ _ => rfl) hi
  exact ⟨rfl, (set 0 (by omega)).2 (.inl rfl), fun i ge lt => (set i lt).2 (.inr ge)⟩

/-- The inode of the root directory. -/
def rootInode (part : Partition) : Inode :=
  { (inodeInit 0).setSec 0 part.sb.dataStartLba with iSize := 2 * direntSize }

theorem Formatted.rootSlot (lay : Layout part n) (fresh : Formatted part n disk) :
    SameStored (slot part disk 0) (rootInode part) ∧ (slot part disk 0).writeDeny = false := by
  have small := lay.small
  have range : (rootInode part).InRange := by
    refine ⟨by simp [rootInode, inodeInit], by simp [rootInode, direntSize], ?_⟩
    intro k
    simp only [rootInode, Inode.setSec, inodeInit, Inode.sec]
    split
    · split <;> omega
    · omega
  have bytes : ∀ i, i < inodeSize → disk (slotAddr part 0 + i) = (rootInode part).pure.image i := by
    intro i hi
    simp only [inodeSize] at hi
    have byte := fresh.inodeTable i (by omega)
    rw [slotAddr, Nat.mul_zero, Nat.add_zero, byte]
    exact if_pos hi
  obtain ⟨same, deny, -⟩ := decode_image range bytes
  exact ⟨same, deny⟩

theorem Formatted.rootBlock_eq (lay : Layout part n) (fresh : Formatted part n disk) :
    (slot part disk part.sb.rootInodeNo).sec 0 = part.sb.dataStartLba := by
  rw [lay.rootInodeNo, (fresh.rootSlot lay).1.sec]
  rfl

end Formatted

section Runs

/-- A run of the allocator: the bitmap and the blocks handed out and not freed. -/
structure Alloc where
  bitmap : Bitmap
  held : List Nat

/-- One call of `block_bitmap_alloc`, or one block freed. -/
inductive AllocStep (sb : SuperBlock) : Alloc → Alloc → Prop
  | alloc {a : Alloc} {lba : Nat} {b : Bitmap} (h : blockBitmapAlloc sb a.bitmap = (some lba, b)) :
      AllocStep sb a ⟨b, lba :: a.held⟩
  | full {a : Alloc} {b : Bitmap} (h : blockBitmapAlloc sb a.bitmap = (none, b)) : AllocStep sb a ⟨b, a.held⟩
  | free {a : Alloc} {lba : Nat} (h : lba ∈ a.held) :
      AllocStep sb a ⟨bitmapSet a.bitmap (subU32 lba sb.dataStartLba) false, a.held.erase lba⟩

/-- The bits set are those of the blocks handed out. -/
structure AllocInv (part : Partition) (n : Nat) (a : Alloc) : Prop where
  map : BlockMap part n a.bitmap
  bits : ∀ i, 0 < i → i < n → (a.bitmap.Set i ↔ part.sb.dataStartLba + i ∈ a.held)
  inside : ∀ lba ∈ a.held, ∃ i, 0 < i ∧ i < n ∧ lba = part.sb.dataStartLba + i
  nodup : a.held.Nodup

variable {part : Partition} {n : Nat} {a a' : Alloc}

theorem AllocInv.step (lay : Layout part n) (inv : AllocInv part n a) (step : AllocStep part.sb a a') :
    AllocInv part n a' := by
  cases step with
  | @alloc lba b h =>
    obtain ⟨none, -⟩ | ⟨i, pos, lt, free, -, some_, rfl⟩ := blockBitmapAlloc_cases lay inv.map h
    · cases none
    cases some_
    have fresh : part.sb.dataStartLba + i ∉ a.held := fun held => free ((inv.bits i pos lt).2 held)
    refine ⟨inv.map.set pos lt true, ?_, ?_, List.nodup_cons.2 ⟨fresh, inv.nodup⟩⟩
    · intro j posj ltj
      rw [set_bitmapSet, List.mem_cons]
      by_cases e : j = i
      · simp [e]
      · rw [if_neg e, inv.bits j posj ltj]
        simp [e]
    · intro lba held
      rcases List.mem_cons.1 held with rfl | held
      · exact ⟨i, pos, lt, rfl⟩
      · exact inv.inside lba held
  | full h =>
    obtain ⟨-, rfl, -⟩ | ⟨i, -, -, -, -, some_, -⟩ := blockBitmapAlloc_cases lay inv.map h
    · exact inv
    · cases some_
  | @free lba held =>
    obtain ⟨i, pos, lt, rfl⟩ := inv.inside lba held
    rw [lay.index lt]
    refine ⟨inv.map.set pos lt false, ?_, fun lba h => inv.inside lba (List.mem_of_mem_erase h), inv.nodup.erase _⟩
    intro j posj ltj
    rw [set_bitmapSet, inv.nodup.mem_erase_iff]
    by_cases e : j = i
    · simp [e]
    · rw [if_neg e, inv.bits j posj ltj]
      simp [e]

theorem AllocInv.run (lay : Layout part n) (inv : AllocInv part n a)
    (run : Relation.ReflTransGen (AllocStep part.sb) a a') : AllocInv part n a' := by
  induction run with
  | refl => exact inv
  | tail _ step ih => exact ih.step lay step

theorem AllocInv.init {disk : Image} (lay : Layout part n) (fresh : Formatted part n disk) :
    AllocInv part n ⟨(mountedFs part disk).blockBitmap, []⟩ := by
  refine ⟨fresh.blockMap lay, ?_, fun _ h => absurd h List.not_mem_nil, List.nodup_nil⟩
  intro i pos lt
  simp [fresh.free lay pos lt]

/-- **Allocation stays inside the partition.** In every run of allocations and frees on
a partition just formatted and mounted, the next block handed out is a data block, not
the root directory's and not handed out already; none is handed out exactly when all are
in use. -/
theorem blockBitmapAlloc_inside {disk disk' : Image} {startLba secCnt sects : Nat} {s : Fs} (lt : secCnt < 2 ^ 32)
    (sizes : formatSizes secCnt = .ok (sects, n)) (blocks : 8 ≤ n)
    (format : partitionFormat disk startLba secCnt = .ok disk')
    (mount : mountPartition disk' startLba secCnt = .ok (part, s))
    (run : Relation.ReflTransGen (AllocStep part.sb) ⟨s.blockBitmap, []⟩ a) :
    (∀ lba b, blockBitmapAlloc part.sb a.bitmap = (some lba, b) →
      part.sb.dataStartLba < lba ∧ lba < part.sb.dataStartLba + n ∧ lba < 2 ^ 31 ∧ lba ∉ a.held ∧
        lba ≠ (slot part s.disk part.sb.rootInodeNo).sec 0) ∧
    ((blockBitmapAlloc part.sb a.bitmap).1 = none ↔
      ∀ lba, part.sb.dataStartLba ≤ lba → lba < part.sb.dataStartLba + n →
        lba = (slot part s.disk part.sb.rootInodeNo).sec 0 ∨ lba ∈ a.held) := by
  obtain ⟨onDisk, super, fresh⟩ := partitionFormat_ok format sizes
  have lay := formatPartition_layout lt sizes blocks onDisk
  obtain ⟨rfl, rfl⟩ := mountPartition_ok lt onDisk super mount
  have inv := (AllocInv.init lay fresh).run lay run
  have small := lay.small
  rw [show (mountedFs (formatPartition startLba secCnt sects) disk').disk = disk' from rfl, fresh.rootBlock_eq lay]
  constructor
  · intro lba b h
    obtain ⟨none, -⟩ | ⟨i, pos, lt, free, -, some_, -⟩ := blockBitmapAlloc_cases lay inv.map h
    · cases none
    cases some_
    exact ⟨by omega, by omega, by omega, fun held => free ((inv.bits i pos lt).2 held), by omega⟩
  · obtain ⟨none, -, all⟩ | ⟨i, pos, lt, free, -, some_, -⟩ := blockBitmapAlloc_cases lay inv.map
      (rfl : _ = (_, _))
    · refine ⟨fun _ lba ge lt => ?_, fun _ => none⟩
      obtain ⟨i, rfl⟩ := Nat.exists_eq_add_of_le ge
      rcases Nat.eq_zero_or_pos i with rfl | pos
      · exact .inl rfl
      · exact .inr ((inv.bits i pos (by omega)).1 (all i (by omega)))
    · refine ⟨fun none => absurd (none.symm.trans some_) nofun, fun all => ?_⟩
      rcases all (_ + i) (Nat.le_add_right _ _) (by omega) with e | held
      · omega
      · exact absurd ((inv.bits i pos lt).2 held) free

/-- The smallest such partition after two blocks were handed out and the first of them was freed. -/
theorem blockBitmapAlloc_inside_eight :
    ∃ disk part s a, partitionFormat (fun _ => 0#8) 1 620 = .ok disk ∧ mountPartition disk 1 620 = .ok (part, s) ∧
      Relation.ReflTransGen (AllocStep part.sb) ⟨s.blockBitmap, []⟩ a ∧ a.held = [615] ∧
      (∀ lba b, blockBitmapAlloc part.sb a.bitmap = (some lba, b) →
        part.sb.dataStartLba < lba ∧ lba < part.sb.dataStartLba + 8 ∧ lba < 2 ^ 31 ∧ lba ∉ a.held ∧
          lba ≠ (slot part s.disk part.sb.rootInodeNo).sec 0) ∧
      ((blockBitmapAlloc part.sb a.bitmap).1 = none ↔
        ∀ lba, part.sb.dataStartLba ≤ lba → lba < part.sb.dataStartLba + 8 →
          lba = (slot part s.disk part.sb.rootInodeNo).sec 0 ∨ lba ∈ a.held) := by
  have sizes : formatSizes 620 = .ok (1, 8) := rfl
  have ran : returns (partitionFormat (fun _ => 0#8) 1 620 >>= fun disk => mountPartition disk 1 620) (fun x =>
      (blockBitmapAlloc x.1.sb x.2.blockBitmap).1 == some 614 &&
        (blockBitmapAlloc x.1.sb (blockBitmapAlloc x.1.sb x.2.blockBitmap).2).1 == some 615) = true := by
    decide +kernel
  obtain ⟨⟨part, s⟩, ran, two⟩ := returns_true.1 ran
  obtain ⟨disk, format, mount⟩ := bind_ok.1 ran
  simp only [Bool.and_eq_true, beq_iff_eq] at two
  have run : Relation.ReflTransGen (AllocStep part.sb) ⟨s.blockBitmap, []⟩ _ :=
    .tail (.tail (.tail .refl (.alloc (Prod.ext two.1 rfl))) (.alloc (Prod.ext two.2 rfl))) (@AllocStep.free _ _ 614 (by simp))
  refine ⟨disk, part, s, _, format, mount, run, rfl, ?_⟩
  exact blockBitmapAlloc_inside (by decide) sizes (by decide) format mount run

end Runs

end Sparrow
