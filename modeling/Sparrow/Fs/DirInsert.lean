import Sparrow.Fs.DirEntries

/-!
# Adding an entry to a directory

`sync_dir_entry` puts the entry into the first dead slot, or into a new block when it
meets an empty reference first. `syncDirEntry_ok` says what it did: `Inserted` when the
entry is in, `Refused` when there was no room.
-/

namespace Sparrow
set_option autoImplicit false

/-- The blocks of a directory: they are in use, different, and on the disk. -/
structure DirBlocks (part : Partition) (n : Nat) (v : Vnode) : Prop where
  blocks : BlocksWf part n v.blockBitmap (blockRef v.disk v.inode)
  onDisk : ∀ k, k < 141 → blockRef v.disk v.inode k ≤ maxLba
  table : v.inode.sec 12 ≠ 0 → blockRef v.disk v.inode 12 ≠ 0

theorem DirSlots.toBlocks {part : Partition} {n selfNo parentNo : Nat} {v : Vnode} (slots : DirSlots part n v selfNo parentNo) :
    DirBlocks part n v := ⟨slots.blocks, slots.onDisk, slots.table⟩

/-- The bytes of the entry `e` went into slot `j₀` of block `k₀`, which was dead or is the
first of a new block. The other slots keep their bytes, those of a new block are blank. -/
structure Placed (part : Partition) (n : Nat) (v v' : Vnode) (e : DirEntry) (k₀ j₀ : Nat) : Prop where
  block : k₀ < 140
  slot : j₀ < 21
  has : blockRef v'.disk v'.inode k₀ ≠ 0
  free : blockRef v.disk v.inode k₀ = 0 ∨ (entryAt v.disk v.inode k₀ j₀).fType = FileTypes.unknown.code
  bytes : ∀ i, i < direntSize → v'.disk (512 * blockRef v'.disk v'.inode k₀ + direntSize * j₀ + i) = e.image i
  blank : blockRef v.disk v.inode k₀ = 0 → ∀ j, j < 21 → j ≠ j₀ → ∀ i, i < direntSize →
    v'.disk (512 * blockRef v'.disk v'.inode k₀ + direntSize * j + i) = 0#8
  kept : ∀ k j, k < 140 → j < 21 → blockRef v.disk v.inode k ≠ 0 → ¬ (k = k₀ ∧ j = j₀) → ∀ i, i < direntSize →
    v'.disk (512 * blockRef v.disk v.inode k + direntSize * j + i) = v.disk (512 * blockRef v.disk v.inode k + direntSize * j + i)
  grow : Grow part n v.blockBitmap v'.blockBitmap (blockRef v.disk v.inode) (blockRef v'.disk v'.inode)
  news : ∀ k, k < 140 → blockRef v.disk v.inode k = 0 → blockRef v'.disk v'.inode k ≠ 0 → k = k₀
  table : v'.inode.sec 12 ≠ 0 → blockRef v'.disk v'.inode 12 ≠ 0
  onDisk : ∀ k, k < 141 → blockRef v'.disk v'.inode k ≤ maxLba
  step : DiskStep part (Owns (blockRef v'.disk v'.inode)) (fun _ => False) v.disk v'.disk
  synced : ∀ X, SyncedBut part X v.disk v.blockBitmap → SyncedBut part X v'.disk v'.blockBitmap
  inode : v'.inode = { v.inode with iSize := addU32 v.inode.iSize direntSize, iSectors := v'.inode.iSectors }

/-- The directory gained the entry `x`, in slot `j₀` of block `k₀`. -/
structure Inserted (part : Partition) (n : Nat) (v v' : Vnode) (x : Item) (k₀ j₀ : Nat) : Prop where
  empty : ∀ y, ¬ ItemAt v k₀ j₀ y
  items : ∀ k j y, ItemAt v' k j y ↔ ItemAt v k j y ∨ (k = k₀ ∧ j = j₀ ∧ y = x)
  used : ∀ k j, k < 140 → j < 21 → blockRef v'.disk v'.inode k ≠ 0 →
    (entryAt v'.disk v'.inode k j).Dead ∨ ∃ y : Item, entryAt v'.disk v'.inode k j = y.entry
  grow : Grow part n v.blockBitmap v'.blockBitmap (blockRef v.disk v.inode) (blockRef v'.disk v'.inode)
  news : ∀ k, k < 140 → blockRef v.disk v.inode k = 0 → blockRef v'.disk v'.inode k ≠ 0 → k = k₀
  table : v'.inode.sec 12 ≠ 0 → blockRef v'.disk v'.inode 12 ≠ 0
  onDisk : ∀ k, k < 141 → blockRef v'.disk v'.inode k ≤ maxLba
  step : DiskStep part (Owns (blockRef v'.disk v'.inode)) (fun _ => False) v.disk v'.disk
  synced : ∀ X, SyncedBut part X v.disk v.blockBitmap → SyncedBut part X v'.disk v'.blockBitmap
  inode : v'.inode = { v.inode with iSize := addU32 v.inode.iSize direntSize, iSectors := v'.inode.iSectors }

/-- The direct blocks are all there and full, and there is no table. -/
structure DirectFull (v : Vnode) : Prop where
  noTable : v.inode.sec 12 = 0
  full : ∀ k, k < 12 → blockRef v.disk v.inode k ≠ 0 ∧
    ∀ j, j < 21 → (entryAt v.disk v.inode k j).fType ≠ FileTypes.unknown.code

/-- Block `i` is the only free one. -/
structure OnlyFree (n : Nat) (b : Bitmap) (i : Nat) : Prop where
  pos : 0 < i
  inside : i < n
  clear : ¬ b.Set i
  others : ∀ j, j < n → j ≠ i → b.Set j

/-- The directory stays as it is. Its storage does too, unless the first block behind the
table was wanted and only one block, `i`, was free: then the bit of `i` stays set on disk. -/
structure Refused (part : Partition) (n : Nat) (v v' : Vnode) : Prop where
  inode : v'.inode = v.inode
  blockBitmap : v'.blockBitmap = v.blockBitmap
  step : DiskStep part (fun _ => False) (fun _ => False) v.disk v'.disk
  synced : v'.disk = v.disk ∨ DirectFull v ∧ ∃ i, OnlyFree n v.blockBitmap i ∧
    ∀ X, SyncedBut part X v.disk v.blockBitmap → SyncedBut part (fun j => X j ∨ j = i) v'.disk v.blockBitmap

/-- Block `k` exists and all its slots are in use. -/
def FullBlock (v : Vnode) (k : Nat) : Prop :=
  blockRef v.disk v.inode k ≠ 0 ∧ ∀ j, j < 21 → (entryAt v.disk v.inode k j).fType ≠ FileTypes.unknown.code

/-- Why the entry was refused: all blocks are full, or a block is wanted and none is free, or
the first block behind the table is wanted and there is one block only, whose bit is then
written. -/
inductive Crowded (part : Partition) (n : Nat) (v v' : Vnode) : Prop
  | full (blocks : ∀ k, k < 140 → FullBlock v k) (same : v' = v)
  | block {k : Nat} (lt : k < 140) (before : ∀ k', k' < k → FullBlock v k') (empty : blockRef v.disk v.inode k = 0)
      (none : ∀ j, j < n → v.blockBitmap.Set j) (same : v' = v)
  | table {i : Nat} (direct : DirectFull v) (empty : blockRef v.disk v.inode 12 = 0) (only : OnlyFree n v.blockBitmap i)
      (written : syncBlock part v.disk (bitmapSet v.blockBitmap i true) (part.sb.dataStartLba + i) = .ok v'.disk)
      (inode : v'.inode = v.inode) (blockBitmap : v'.blockBitmap = v.blockBitmap)

/-- The directory has no place for one entry more, and the partition no block for it. -/
def NoRoom (n : Nat) (v : Vnode) : Prop :=
  (∀ k, k < 140 → FullBlock v k) ∨ ∃ k, k < 140 ∧ (∀ k', k' < k → FullBlock v k') ∧ blockRef v.disk v.inode k = 0 ∧
    ((∀ j, j < n → v.blockBitmap.Set j) ∨ k = 12 ∧ ∃ i, OnlyFree n v.blockBitmap i)

/-- The inode after blocks were found for the entry, before the entry itself is written:
`lba` is the new block, number `k₀`. -/
structure Prepared (part : Partition) (n : Nat) (v w : Vnode) (k₀ lba : Nat) : Prop where
  block : k₀ < 140
  empty : blockRef v.disk v.inode k₀ = 0
  isNew : blockRef w.disk w.inode k₀ = lba
  some : lba ≠ 0
  grow : Grow part n v.blockBitmap w.blockBitmap (blockRef v.disk v.inode) (blockRef w.disk w.inode)
  news : ∀ k, k < 140 → blockRef v.disk v.inode k = 0 → blockRef w.disk w.inode k ≠ 0 → k = k₀
  table : w.inode.sec 12 ≠ 0 → blockRef w.disk w.inode 12 ≠ 0
  onDisk : ∀ k, k < 141 → k ≠ k₀ → blockRef w.disk w.inode k ≤ maxLba
  step : DiskStep part (Owns (blockRef w.disk w.inode)) (fun _ => False) v.disk w.disk
  same : ∀ k, k < 140 → blockRef v.disk v.inode k ≠ 0 → SameSector v.disk w.disk (blockRef v.disk v.inode k)
  synced : ∀ X, SyncedBut part X v.disk v.blockBitmap → SyncedBut part X w.disk w.blockBitmap
  inode : w.inode = { v.inode with iSectors := w.inode.iSectors }

section Entries

variable {disk disk' : Image} {ino ino' : Inode} {k j : Nat}

/-- Entries depend on the sector of their block. -/
theorem entryAt_congr (ref : blockRef disk' ino' k = blockRef disk ino k) (same : SameSector disk disk' (blockRef disk ino k))
    (lt : j < 21) : entryAt disk' ino' k j = entryAt disk ino k j := by
  rw [entryAt, entryAt, ref]
  apply decodeDirent_congr
  intro i hi
  simp only [direntSize] at hi ⊢
  rw [Nat.add_assoc]
  exact same _ (by omega)

/-- Writing a slot leaves the entries in the other slots of every block. -/
theorem decodeDirent_other {src : Image} {lba lba' j' : Nat} (lt : j < 21) (lt' : j' < 21) (ne : lba' ≠ lba ∨ j' ≠ j) :
    decodeDirent (splice disk (512 * lba + direntSize * j) direntSize src) (512 * lba') j' =
      decodeDirent disk (512 * lba') j' := by
  apply decodeDirent_congr
  intro i hi
  simp only [direntSize] at hi ⊢
  apply splice_out
  rcases Nat.lt_trichotomy lba' lba with before | rfl | after
  · omega
  · rcases ne with ne | ne
    · exact absurd rfl ne
    · omega
  · omega

end Entries

section NewBlock

variable {part : Partition} {n : Nat} {v v' w : Vnode} {x : Item} {k₀ lba : Nat}

theorem writeFirstEntry_ok (lay : Layout part n) {e : DirEntry} {ok : Bool} (h : writeFirstEntry part w e lba = .ok (ok, v')) :
    ok = true ∧ lba ≤ maxLba ∧ v' = ⟨splice w.disk (512 * lba) (512 * 1) (splice zeros 0 direntSize e.image),
      w.blockBitmap, { w.inode with iSize := addU32 w.inode.iSize direntSize }⟩ := by
  simp only [writeFirstEntry, bind_ok, ideWrite_ok, pure_ok, lay.dirEntrySize] at h
  obtain ⟨disk, ⟨ok, rfl⟩, h⟩ := h
  cases h
  exact ⟨rfl, ok.1, rfl⟩

/-- Block `i` of `v` was free, and is taken in memory and on disk. -/
structure BlockTaken (part : Partition) (n : Nat) (v : Vnode) (i : Nat) (disk : Image) : Prop where
  pos : 0 < i
  inside : i < n
  clear : ¬ v.blockBitmap.Set i
  written : syncBlock part v.disk (bitmapSet v.blockBitmap i true) (part.sb.dataStartLba + i) = .ok disk

/-- Where the branch of `sync_dir_entry` for a block that does not exist yet can end. -/
inductive NewBlockEnd (part : Partition) (n : Nat) (v : Vnode) (all : Nat → Nat) (e : DirEntry) (k : Nat) : Bool → Vnode → Prop where
  /-- There is no block at all. -/
  | full (none : ∀ i, i < n → v.blockBitmap.Set i) : NewBlockEnd part n v all e k false v
  | direct {i : Nat} {disk : Image} {ok : Bool} {v' : Vnode} (taken : BlockTaken part n v i disk) (direct : k < 12)
    (entry : writeFirstEntry part ⟨disk, bitmapSet v.blockBitmap i true, v.inode.setSec k (part.sb.dataStartLba + i)⟩ e
      (part.sb.dataStartLba + i) = .ok (ok, v')) : NewBlockEnd part n v all e k ok v'
  /-- There is one for the table, but none for its first block, and the one is given back in memory. -/
  | single {i : Nat} {disk : Image} (taken : BlockTaken part n v i disk) (twelve : k = 12)
    (none : ∀ j, j < n → (bitmapSet v.blockBitmap i true).Set j) :
    NewBlockEnd part n v all e k false ⟨disk, v.blockBitmap, v.inode.setSec 12 0⟩
  | table {i i' : Nat} {disk disk' : Image} {ok : Bool} {v' : Vnode} (taken : BlockTaken part n v i disk)
    (taken' : BlockTaken part n ⟨disk, bitmapSet v.blockBitmap i true, v.inode⟩ i' disk') (twelve : k = 12)
    (onDisk : part.sb.dataStartLba + i ≤ maxLba)
    (entry : writeFirstEntry part ⟨splice disk' (512 * (part.sb.dataStartLba + i)) (512 * 1)
        (tableImage fun k => if k = 12 then part.sb.dataStartLba + i' else all k),
      bitmapSet (bitmapSet v.blockBitmap i true) i' true, v.inode.setSec 12 (part.sb.dataStartLba + i)⟩ e
      (part.sb.dataStartLba + i') = .ok (ok, v')) : NewBlockEnd part n v all e k ok v'
  | indirect {i : Nat} {disk : Image} {ok : Bool} {v' : Vnode} (taken : BlockTaken part n v i disk) (past : 12 < k)
    (entry : writeFirstEntry part ⟨splice disk (512 * v.inode.sec 12) (512 * 1)
        (tableImage fun j => if j = k then part.sb.dataStartLba + i else all j), bitmapSet v.blockBitmap i true, v.inode⟩ e
      (part.sb.dataStartLba + i) = .ok (ok, v')) : NewBlockEnd part n v all e k ok v'

theorem syncNewBlock_cases (lay : Layout part n) (map : BlockMap part n v.blockBitmap) {all : Nat → Nat} {e : DirEntry} {k : Nat}
    {ok : Bool} (h : syncNewBlock part v all e k = .ok (ok, v')) : NewBlockEnd part n v all e k ok v' := by
  simp only [syncNewBlock] at h
  split at h
  · rename_i b alloc
    rw [pure_ok] at h
    cases h
    obtain ⟨-, rfl, full⟩ | ⟨i, -, -, -, -, some_, -⟩ := blockBitmapAlloc_cases lay map alloc
    · exact .full full
    · cases some_
  rename_i lba b alloc
  obtain ⟨none, -⟩ | ⟨i, pos, inside, clear, -, some_, rfl⟩ := blockBitmapAlloc_cases lay map alloc
  · cases none
  cases some_
  simp only [bind_ok, assertThat_ok, exists_const] at h
  obtain ⟨-, disk, written, h⟩ := h
  have taken : BlockTaken part n v i disk := ⟨pos, inside, clear, written⟩
  split at h
  · rename_i direct
    exact .direct taken direct h
  split at h
  · rename_i twelve
    split at h
    · rename_i b' alloc'
      simp only [bitmapClear, bind_ok, defined_ok, pure_ok, exists_const, lay.index inside] at h
      obtain ⟨b'', ⟨-, rfl⟩, h⟩ := h
      cases h
      obtain ⟨-, rfl, full⟩ | ⟨_, -, -, -, -, some_, -⟩ := blockBitmapAlloc_cases lay (map.set pos inside true) alloc'
      · rw [bitmapSet_undo clear]
        exact .single taken twelve full
      · cases some_
    · rename_i lba' b' alloc'
      obtain ⟨none', -⟩ | ⟨i', pos', inside', clear', -, some_, rfl⟩ := blockBitmapAlloc_cases lay (map.set pos inside true) alloc'
      · cases none'
      cases some_
      simp only [bind_ok, assertThat_ok, ideWrite_ok, exists_const] at h
      obtain ⟨-, disk', written', _, ⟨onDisk, rfl⟩, h⟩ := h
      exact .table taken ⟨pos', inside', clear', written'⟩ twelve onDisk.1 h
  · rename_i notDirect notFirst
    simp only [bind_ok, ideWrite_ok] at h
    obtain ⟨_, ⟨-, rfl⟩, h⟩ := h
    exact .indirect taken (by omega) h

/-- The entry goes into the first slot of the new block. -/
theorem Prepared.placed (lay : Layout part n) (prep : Prepared part n v w k₀ lba) {e : DirEntry} {ok : Bool}
    (h : writeFirstEntry part w e lba = .ok (ok, v')) : ok = true ∧ Placed part n v v' e k₀ 0 := by
  obtain ⟨rfl, onDisk, rfl⟩ := writeFirstEntry_ok lay h
  refine ⟨rfl, ?_⟩
  have block := prep.block
  have mine := prep.isNew
  have isNew := prep.some
  have ge : part.sb.dataStartLba ≤ lba := by
    obtain ⟨i, -, -, is, -⟩ := prep.grow.free k₀ (by omega) prep.empty (by omega)
    omega
  -- the other blocks and the table are not the new block
  have distinct : ∀ k, k < 141 → k ≠ k₀ → blockRef w.disk w.inode k ≠ lba := by
    intro k lt ne e
    exact ne (prep.grow.wf.inj k k₀ lt (by omega) (by omega) (by omega))
  have step := diskStep_data lay w.disk (splice zeros 0 direntSize e.image) ge
  have refs : ∀ k, k < 141 → blockRef (splice w.disk (512 * lba) (512 * 1) (splice zeros 0 direntSize e.image))
      { w.inode with iSize := addU32 w.inode.iSize direntSize } k = blockRef w.disk w.inode k := by
    intro k lt
    refine blockRef_congr (fun _ => rfl) (fun has => step.data _ ?_ ?_) lt
    · exact (prep.grow.wf.block 140 (by omega) has).ge
    · exact distinct 140 (by omega) (by omega)
  refine ⟨block, by omega, ?_, .inl prep.empty, fun i hi => ?_, fun _ j lt ne i hi => ?_, fun k j lt ltj has _ i hi => ?_,
    prep.grow.congr refs, fun k lt zero has => prep.news k lt zero (by rwa [refs k (by omega)] at has), fun has => ?_,
    fun k lt => ?_, ?_, fun X synced => (prep.synced X synced).behind lay ?_, ?_⟩
  · rw [refs k₀ (by omega), mine]
    exact isNew
  · rw [refs k₀ (by omega), mine]
    simp only [direntSize] at hi ⊢
    rw [Nat.mul_zero, Nat.add_zero, splice_at (by omega), splice_in (by omega) (by omega), Nat.sub_zero]
  · rw [refs k₀ (by omega), mine]
    simp only [direntSize] at hi ⊢
    rw [Nat.add_assoc, splice_at (by omega), splice_out (by omega)]
    rfl
  · have ne : k ≠ k₀ := fun e => has (e ▸ prep.empty)
    have kept := prep.grow.kept k (by omega) has
    have ge' := (prep.grow.wf.block k (by omega) (by rw [kept]; exact has)).ge
    have out := distinct k (by omega) ne
    rw [kept] at ge' out
    simp only [direntSize] at hi ⊢
    rw [Nat.add_assoc, ← prep.same k lt has (24 * j + i) (by omega)]
    exact step.data _ ge' out _ (by omega)
  · rw [refs 12 (by omega)]
    exact prep.table has
  · rw [refs k lt]
    by_cases e : k = k₀
    · rw [e, mine]
      exact onDisk
    · exact prep.onDisk k lt e
  · refine DiskStep.trans (prep.step.mono (fun lba owns => (Owns.congr refs).2 owns) (fun _ h => h)) ?_
    refine step.mono ?_ (fun _ h => h)
    rintro _ rfl
    exact (Owns.congr refs).2 ⟨isNew, k₀, by omega, mine⟩
  · have h1 := lay.dataStartLba
    have h2 := lay.inodeTableLba
    omega
  · rw [prep.inode]

end NewBlock

section Prepare

variable {part : Partition} {n : Nat} {v : Vnode} {i k₀ : Nat} {disk₁ : Image}

/-- A new direct block. -/
theorem prepared_direct (lay : Layout part n) (map : BlockMap part n v.blockBitmap) (wf : DirBlocks part n v)
    (direct : k₀ < 12) (empty : blockRef v.disk v.inode k₀ = 0) (taken : BlockTaken part n v i disk₁) :
    Prepared part n v ⟨disk₁, bitmapSet v.blockBitmap i true, v.inode.setSec k₀ (part.sb.dataStartLba + i)⟩ k₀
      (part.sb.dataStartLba + i) := by
  obtain ⟨pos, inside, clear, written⟩ := taken
  have ds := lay.dataStartLba
  have step := syncBlock_step lay inside written
  have secs : ∀ j, (v.inode.setSec k₀ (part.sb.dataStartLba + i)).sec j =
      if j = k₀ then part.sb.dataStartLba + i else v.inode.sec j := fun j => v.inode.sec_setSec (by omega)
  have same : ∀ k, k < 141 → blockRef v.disk v.inode k ≠ 0 → SameSector v.disk disk₁ (blockRef v.disk v.inode k) :=
    fun k lt has => step.data _ (wf.blocks.block k lt has).ge id
  have refs : ∀ k, k < 141 → blockRef disk₁ (v.inode.setSec k₀ (part.sb.dataStartLba + i)) k =
      Function.update (blockRef v.disk v.inode) k₀ (part.sb.dataStartLba + i) k :=
    fun k lt => blockRef_setDirect direct secs (same 140 (by omega)) lt
  have grow := (Grow.one lay map wf.blocks k₀ (by omega) empty pos inside clear).congr refs
  refine ⟨by omega, empty, ?_, by omega, grow, fun k lt zero has => ?_, fun has => ?_, fun k lt ne => ?_,
    step.mono (fun _ h => h.elim) (fun _ h => h), fun k lt => same k (by omega), fun X h => h.set lay inside written, rfl⟩
  · rw [refs k₀ (by omega), Function.update_self]
  · by_contra ne
    rw [refs k (by omega), Function.update_of_ne ne] at has
    exact has zero
  · rw [refs 12 (by omega), Function.update_of_ne (by omega)]
    refine wf.table ?_
    rwa [secs, if_neg (by omega)] at has
  · rw [refs k lt, Function.update_of_ne ne]
    exact wf.onDisk k lt

/-- A new block behind the table, which exists. -/
theorem prepared_indirect (lay : Layout part n) (map : BlockMap part n v.blockBitmap) (wf : DirBlocks part n v)
    {all : Nat → Nat} (refs : ∀ k, k < 140 → all k = blockRef v.disk v.inode k) (ge : 12 < k₀) (lt : k₀ < 140)
    (has : v.inode.sec 12 ≠ 0) (empty : blockRef v.disk v.inode k₀ = 0) (taken : BlockTaken part n v i disk₁) :
    Prepared part n v ⟨splice disk₁ (512 * v.inode.sec 12) (512 * 1)
        (tableImage fun k => if k = k₀ then part.sb.dataStartLba + i else all k),
      bitmapSet v.blockBitmap i true, v.inode⟩ k₀ (part.sb.dataStartLba + i) := by
  obtain ⟨pos, inside, clear, written⟩ := taken
  have ds := lay.dataStartLba
  have small := lay.small
  have tableBlock : DataBlock part n v.blockBitmap (v.inode.sec 12) := wf.blocks.block 140 (by omega) has
  have step₁ := syncBlock_step lay inside written
  have step₂ := diskStep_data lay disk₁
    (tableImage fun k => if k = k₀ then part.sb.dataStartLba + i else all k) tableBlock.ge
  have refs' : ∀ k, k < 141 → blockRef (splice disk₁ (512 * v.inode.sec 12) (512 * 1)
      (tableImage fun k => if k = k₀ then part.sb.dataStartLba + i else all k)) v.inode k =
      Function.update (blockRef v.disk v.inode) k₀ (part.sb.dataStartLba + i) k := by
    intro k ltk
    by_cases last : k = 140
    · rw [last, Function.update_of_ne (by omega)]
      rfl
    · rw [blockRef_tableWritten has (by omega)]
      by_cases e : k = k₀
      · subst e
        rw [Function.update_self, if_neg (by omega), if_pos rfl, Nat.mod_eq_of_lt (by omega)]
      · rw [Function.update_of_ne e]
        by_cases d : k < 12
        · rw [if_pos d, blockRef_direct d]
        · rw [if_neg d, if_neg e, refs k (by omega)]
          by_cases z : blockRef v.disk v.inode k = 0
          · simp only [z, Nat.zero_mod]
          · exact Nat.mod_eq_of_lt ((wf.blocks.block k ltk z).lt_pow lay)
  have grow := (Grow.one lay map wf.blocks k₀ (by omega) empty pos inside clear).congr refs'
  have owned : Owns (blockRef (splice disk₁ (512 * v.inode.sec 12) (512 * 1)
      (tableImage fun k => if k = k₀ then part.sb.dataStartLba + i else all k)) v.inode) (v.inode.sec 12) :=
    ⟨has, 140, by omega, rfl⟩
  refine ⟨lt, empty, ?_, by omega, grow, fun k ltk zero h => ?_, fun _ => ?_, fun k ltk ne => ?_, ?_, fun k ltk h => ?_,
    fun X h => (h.set lay inside written).behind lay ?_, rfl⟩
  · rw [refs' k₀ (by omega), Function.update_self]
  · by_contra ne
    rw [refs' k (by omega), Function.update_of_ne ne] at h
    exact h zero
  · rw [refs' 12 (by omega), Function.update_of_ne (by omega)]
    exact wf.table has
  · rw [refs' k ltk, Function.update_of_ne ne]
    exact wf.onDisk k ltk
  · refine (step₁.mono (fun _ h => h.elim) (fun _ h => h)).trans (step₂.mono ?_ (fun _ h => h))
    rintro _ rfl
    exact owned
  · have block := wf.blocks.block k (by omega) h
    have ne : blockRef v.disk v.inode k ≠ v.inode.sec 12 := fun e =>
      absurd (wf.blocks.inj k 140 (by omega) (by omega) h e) (by omega)
    intro l hl
    exact (step₂.data _ block.ge ne l hl).trans (step₁.data _ block.ge id l hl)
  · have h2 := lay.inodeTableLba
    have := tableBlock.ge
    omega

/-- The first block behind the table, and the table with it. -/
theorem prepared_table (lay : Layout part n) (map : BlockMap part n v.blockBitmap) (wf : DirBlocks part n v)
    {all : Nat → Nat} {i' : Nat} {disk₂ : Image} (refs : ∀ k, k < 140 → all k = blockRef v.disk v.inode k)
    (empty : blockRef v.disk v.inode 12 = 0) (taken : BlockTaken part n v i disk₁)
    (taken' : BlockTaken part n ⟨disk₁, bitmapSet v.blockBitmap i true, v.inode⟩ i' disk₂)
    (onDisk : part.sb.dataStartLba + i ≤ maxLba) :
    Prepared part n v ⟨splice disk₂ (512 * (part.sb.dataStartLba + i)) (512 * 1)
        (tableImage fun k => if k = 12 then part.sb.dataStartLba + i' else all k),
      bitmapSet (bitmapSet v.blockBitmap i true) i' true, v.inode.setSec 12 (part.sb.dataStartLba + i)⟩ 12
      (part.sb.dataStartLba + i') := by
  obtain ⟨pos, inside, clear, written⟩ := taken
  obtain ⟨pos', inside', clear', written'⟩ := taken'
  have ds := lay.dataStartLba
  have small := lay.small
  have none : v.inode.sec 12 = 0 := by
    by_contra has
    exact wf.table has empty
  have secs : ∀ j, (v.inode.setSec 12 (part.sb.dataStartLba + i)).sec j =
      if j = 12 then part.sb.dataStartLba + i else v.inode.sec j := fun j => v.inode.sec_setSec (by omega)
  have table : (v.inode.setSec 12 (part.sb.dataStartLba + i)).sec 12 = part.sb.dataStartLba + i := by
    rw [secs, if_pos rfl]
  have step₁ := (syncBlock_step lay inside written).trans (syncBlock_step lay inside' written')
  have step₂ := diskStep_data lay disk₂ (tableImage fun k => if k = 12 then part.sb.dataStartLba + i' else all k)
    (show part.sb.dataStartLba ≤ part.sb.dataStartLba + i by omega)
  have refs' : ∀ k, k < 141 → blockRef (splice disk₂ (512 * (part.sb.dataStartLba + i)) (512 * 1)
      (tableImage fun k => if k = 12 then part.sb.dataStartLba + i' else all k))
      (v.inode.setSec 12 (part.sb.dataStartLba + i)) k =
      Function.update (Function.update (blockRef v.disk v.inode) 140 (part.sb.dataStartLba + i)) 12
        (part.sb.dataStartLba + i') k := by
    intro k ltk
    by_cases last : k = 140
    · rw [last, Function.update_of_ne (by omega), Function.update_self, blockRef_table, table]
    · have has : (v.inode.setSec 12 (part.sb.dataStartLba + i)).sec 12 ≠ 0 := by omega
      have written : blockRef (splice disk₂ (512 * (v.inode.setSec 12 (part.sb.dataStartLba + i)).sec 12) (512 * 1)
          (tableImage fun k => if k = 12 then part.sb.dataStartLba + i' else all k)) _ k = _ :=
        blockRef_tableWritten has (by omega)
      rw [table] at written
      rw [written]
      by_cases e : k = 12
      · subst e
        rw [Function.update_self, if_neg (by omega), if_pos rfl, Nat.mod_eq_of_lt (by omega)]
      · rw [Function.update_of_ne e, Function.update_of_ne last]
        by_cases d : k < 12
        · rw [if_pos d, blockRef_direct d, secs, if_neg (by omega)]
        · have nothing : blockRef v.disk v.inode k = 0 := blockRef_none (by omega) (by omega) none
          simp only [if_neg d, if_neg e, refs k (show k < 140 by omega), nothing, Nat.zero_mod]
  have grow₁ := Grow.one lay map wf.blocks 140 (by omega) none pos inside clear
  have grow₂ := Grow.one lay grow₁.map grow₁.wf 12 (by omega)
    (by rw [Function.update_of_ne (by omega)]; exact empty) pos' inside' clear'
  have grow := (grow₁.trans grow₂).congr refs'
  have fresh : ∀ k, k < 141 → blockRef v.disk v.inode k ≠ part.sb.dataStartLba + i := by
    intro k ltk e
    obtain ⟨j, -, is, set⟩ := wf.blocks.block k ltk (by omega)
    exact clear ((show j = i by omega) ▸ set)
  refine ⟨by omega, empty, ?_, by omega, grow, fun k ltk zero h => ?_, fun _ => ?_, fun k ltk ne => ?_, ?_, fun k ltk h => ?_,
    fun X h => ((h.set lay inside written).set lay inside' written').behind lay ?_, rfl⟩
  · rw [refs' 12 (by omega), Function.update_self]
  · by_contra ne
    rw [refs' k (by omega), Function.update_of_ne ne, Function.update_of_ne (by omega)] at h
    exact h zero
  · rw [refs' 12 (by omega), Function.update_self]
    omega
  · rw [refs' k ltk, Function.update_of_ne ne]
    by_cases last : k = 140
    · rw [last, Function.update_self]
      exact onDisk
    · rw [Function.update_of_ne last]
      exact wf.onDisk k ltk
  · refine (step₁.mono (fun _ h => h.elim) (fun _ h => h)).trans (step₂.mono ?_ (fun _ h => h))
    rintro _ rfl
    exact ⟨by omega, 140, by omega, by rw [blockRef_table, table]⟩
  · have block := wf.blocks.block k (by omega) h
    intro l hl
    exact (step₂.data _ block.ge (fresh k (by omega)) l hl).trans (step₁.data _ block.ge id l hl)
  · have h2 := lay.inodeTableLba
    omega

end Prepare

section Sync

variable {part : Partition} {n : Nat} {v v' : Vnode} {x : Item} {e : DirEntry} {selfNo parentNo : Nat}

theorem Crowded.refused (lay : Layout part n) (crowded : Crowded part n v v') : Refused part n v v' := by
  cases crowded with
  | full _ same => exact same ▸ ⟨rfl, rfl, .refl, .inl rfl⟩
  | block _ _ _ _ same => exact same ▸ ⟨rfl, rfl, .refl, .inl rfl⟩
  | @table i direct _ only written inode blockBitmap =>
    refine ⟨inode, blockBitmap, syncBlock_step lay only.inside written, .inr ⟨direct, i, only, fun X synced j insidej out => ?_⟩⟩
    have := synced.set lay only.inside written j insidej fun h => out (.inl h)
    rwa [set_bitmapSet, if_neg fun e => out (.inr e)] at this

theorem Crowded.noRoom (crowded : Crowded part n v v') : NoRoom n v := by
  cases crowded with
  | full blocks _ => exact .inl blocks
  | @block k lt before empty none _ => exact .inr ⟨k, lt, before, empty, .inl none⟩
  | @table i direct empty only _ _ _ => exact .inr ⟨12, by omega, direct.full, empty, .inr ⟨rfl, i, only⟩⟩

/-- The branch for a block that does not exist yet. -/
theorem syncNewBlock_ok (lay : Layout part n) (map : BlockMap part n v.blockBitmap) (wf : DirBlocks part n v)
    {all : Nat → Nat} {k : Nat} {ok : Bool} (refs : ∀ k, k < 140 → all k = blockRef v.disk v.inode k) (lt : k < 140)
    (empty : blockRef v.disk v.inode k = 0) (before : ∀ k', k' < k → FullBlock v k')
    (h : syncNewBlock part v all e k = .ok (ok, v')) :
    (ok = false ∧ Crowded part n v v') ∨ (ok = true ∧ Placed part n v v' e k 0) := by
  cases syncNewBlock_cases lay map h with
  | full none => exact .inl ⟨rfl, .block lt before empty none rfl⟩
  | direct taken direct entry => exact .inr ((prepared_direct lay map wf direct empty taken).placed lay entry)
  | @single i disk taken twelve full =>
    subst twelve
    have none : v.inode.sec 12 = 0 := by
      by_contra has
      exact wf.table has empty
    refine .inl ⟨rfl, .table ⟨none, before⟩ empty ⟨taken.pos, taken.inside, taken.clear, fun j ltj ne => ?_⟩ taken.written ?_ rfl⟩
    · have := full j ltj
      rwa [set_bitmapSet, if_neg ne] at this
    · have secs : (v.inode.setSec 12 0).iSectors = v.inode.iSectors := by
        apply iSectors_ext
        intro k _
        rw [Inode.sec_setSec _ (by omega)]
        split
        · rename_i e
          rw [e, none]
        · rfl
      show { v.inode with iSectors := (v.inode.setSec 12 0).iSectors } = v.inode
      rw [secs]
  | table taken taken' twelve onDisk entry =>
    subst twelve
    exact .inr ((prepared_table lay map wf refs empty taken taken' onDisk).placed lay entry)
  | indirect taken past entry =>
    -- the table exists, since the block before this one does
    have has : v.inode.sec 12 ≠ 0 := by
      intro zero
      exact (before 12 past).1 (blockRef_none (by omega) (by omega) zero)
    exact .inr ((prepared_indirect lay map wf refs past lt has empty taken).placed lay entry)

/-- A dead slot of an existing block takes the entry. -/
theorem placed_reuse (lay : Layout part n) (map : BlockMap part n v.blockBitmap) (wf : DirBlocks part n v) {k j : Nat}
    (lt : k < 140) (ltj : j < 21) (has : blockRef v.disk v.inode k ≠ 0)
    (dead : (entryAt v.disk v.inode k j).fType = FileTypes.unknown.code) :
    Placed part n v ⟨splice v.disk (512 * blockRef v.disk v.inode k + direntSize * j) direntSize e.image,
      v.blockBitmap, { v.inode with iSize := addU32 v.inode.iSize direntSize }⟩ e k j := by
  have block := wf.blocks.block k (by omega) has
  have step : DiskStep part (fun y => y = blockRef v.disk v.inode k) (fun _ => False) v.disk
      (splice v.disk (512 * blockRef v.disk v.inode k + direntSize * j) direntSize e.image) := by
    rw [← splice_shifted (n := 512 * 1) (by simp only [direntSize]; omega)]
    exact diskStep_data lay _ _ block.ge
  have refs : ∀ k', k' < 141 → blockRef (splice v.disk (512 * blockRef v.disk v.inode k + direntSize * j) direntSize
      e.image) { v.inode with iSize := addU32 v.inode.iSize direntSize } k' = blockRef v.disk v.inode k' := by
    intro k' lt'
    refine blockRef_congr (fun _ => rfl) (fun h => step.data _ (wf.blocks.block 140 (by omega) h).ge fun e => ?_) lt'
    exact absurd (wf.blocks.inj 140 k (by omega) (by omega) h e) (by omega)
  have grow : Grow part n v.blockBitmap v.blockBitmap (blockRef v.disk v.inode) (blockRef v.disk v.inode) :=
    .refl map wf.blocks
  refine ⟨lt, ltj, ?_, .inr dead, fun i hi => ?_, fun empty => absurd empty has, fun k' j' lt' ltj' has' ne i hi => ?_,
    grow.congr refs, fun k' lt' zero has' => ?_, fun h => ?_, fun k' lt' => ?_, step.mono ?_ (fun _ h => h),
    fun X h => h.behind lay ?_, rfl⟩
  · rw [refs k (by omega)]
    exact has
  · rw [refs k (by omega)]
    exact splice_at hi
  · simp only [direntSize] at hi ⊢
    apply splice_out
    by_cases e : k' = k
    · have : j' ≠ j := fun ej => ne ⟨e, ej⟩
      rw [e]
      omega
    · have : blockRef v.disk v.inode k' ≠ blockRef v.disk v.inode k := fun eb =>
        e (wf.blocks.inj k' k (by omega) (by omega) has' eb)
      omega
  · rw [refs k' (by omega)] at has'
    exact absurd zero has'
  · rw [refs 12 (by omega)]
    exact wf.table h
  · rw [refs k' lt']
    exact wf.onDisk k' lt'
  · rintro _ rfl
    exact (Owns.congr refs).2 (owns_ref (by omega) has)
  · have h1 := lay.dataStartLba
    have h2 := lay.inodeTableLba
    have := block.ge
    omega

/-- The entry of `x` in its slot is one entry more. -/
theorem Placed.inserted {k₀ j₀ : Nat} (wf : ∀ k j, k < 140 → j < 21 → blockRef v.disk v.inode k ≠ 0 →
      (entryAt v.disk v.inode k j).Dead ∨ ∃ y : Item, entryAt v.disk v.inode k j = y.entry)
    (placed : Placed part n v v' x.entry k₀ j₀) : Inserted part n v v' x k₀ j₀ := by
  have block := placed.block
  have mine : entryAt v'.disk v'.inode k₀ j₀ = x.entry := decodeDirent_image x placed.bytes
  have refs : ∀ k, k < 140 → blockRef v.disk v.inode k ≠ 0 → blockRef v'.disk v'.inode k = blockRef v.disk v.inode k :=
    fun k lt has => placed.grow.kept k (by omega) has
  have other : ∀ k j, k < 140 → j < 21 → blockRef v.disk v.inode k ≠ 0 → ¬ (k = k₀ ∧ j = j₀) →
      entryAt v'.disk v'.inode k j = entryAt v.disk v.inode k j := by
    intro k j lt ltj has ne
    rw [entryAt, refs k lt has, entryAt]
    exact decodeDirent_congr (placed.kept k j lt ltj has ne)
  have dead : ∀ j, j < 21 → j ≠ j₀ → blockRef v.disk v.inode k₀ = 0 → (entryAt v'.disk v'.inode k₀ j).Dead :=
    fun j ltj ne empty => decodeDirent_dead (placed.blank empty j ltj ne)
  have free : ∀ y, ¬ ItemAt v k₀ j₀ y := by
    intro y at_
    rcases placed.free with empty | unknown
    · exact at_.has empty
    · exact y.fType_ne (at_.entry ▸ unknown)
  refine ⟨free, fun k j y => ⟨fun at_ => ?_, ?_⟩, fun k j lt ltj has => ?_, placed.grow, placed.news, placed.table, placed.onDisk,
    placed.step, placed.synced, placed.inode⟩
  · by_cases e : k = k₀ ∧ j = j₀
    · obtain ⟨rfl, rfl⟩ := e
      exact .inr ⟨rfl, rfl, Item.entry_inj (at_.entry.symm.trans mine)⟩
    by_cases empty : blockRef v.disk v.inode k = 0
    · obtain rfl := placed.news k at_.block empty at_.has
      exact absurd (at_.entry ▸ dead j at_.slot (fun ej => e ⟨rfl, ej⟩) empty) y.not_dead
    · exact .inl ⟨at_.block, at_.slot, empty, (other k j at_.block at_.slot empty e).symm.trans at_.entry⟩
  · rintro (at_ | ⟨rfl, rfl, rfl⟩)
    · have e : ¬ (k = k₀ ∧ j = j₀) := by
        rintro ⟨rfl, rfl⟩
        exact free y at_
      refine ⟨at_.block, at_.slot, ?_, (other k j at_.block at_.slot at_.has e).trans at_.entry⟩
      rw [refs k at_.block at_.has]
      exact at_.has
    · exact ⟨block, placed.slot, placed.has, mine⟩
  · by_cases e : k = k₀ ∧ j = j₀
    · obtain ⟨rfl, rfl⟩ := e
      exact .inr ⟨x, mine⟩
    by_cases empty : blockRef v.disk v.inode k = 0
    · obtain rfl := placed.news k lt empty has
      exact .inl (dead j ltj (fun ej => e ⟨rfl, ej⟩) empty)
    · rw [other k j lt ltj empty e]
      exact wf k j lt ltj empty

/-- Where the loop of `sync_dir_entry` stops. -/
theorem syncBlocks_cases (lay : Layout part n) {all : Nat → Nat} {e : DirEntry} {ok : Bool} :
    ∀ m a, syncBlocks part v all e (List.range' a m) = .ok (ok, v') →
      (ok = false ∧ v' = v ∧ ∀ k', a ≤ k' → k' < a + m → all k' ≠ 0 ∧
          ∀ j, j < 21 → (decodeDirent v.disk (512 * all k') j).fType ≠ FileTypes.unknown.code) ∨
        ∃ k, a ≤ k ∧ k < a + m ∧ (∀ k', a ≤ k' → k' < k → all k' ≠ 0 ∧
          ∀ j, j < 21 → (decodeDirent v.disk (512 * all k') j).fType ≠ FileTypes.unknown.code) ∧
          ((all k = 0 ∧ syncNewBlock part v all e k = .ok (ok, v')) ∨
            (all k ≠ 0 ∧ ok = true ∧ ∃ j, j < 21 ∧
              (decodeDirent v.disk (512 * all k) j).fType = FileTypes.unknown.code ∧
              (∀ j', j' < j → (decodeDirent v.disk (512 * all k) j').fType ≠ FileTypes.unknown.code) ∧
              v' = ⟨splice v.disk (512 * all k + direntSize * j) direntSize e.image, v.blockBitmap,
                { v.inode with iSize := addU32 v.inode.iSize direntSize }⟩)) := by
  intro m
  induction m with
  | zero =>
    intro a h
    simp only [List.range'_zero, syncBlocks, pure_ok] at h
    cases h
    exact .inl ⟨rfl, rfl, fun k' h1 h2 => by omega⟩
  | succ m ih =>
    intro a h
    rw [List.range'_succ, syncBlocks] at h
    split at h
    · rename_i zero
      exact .inr ⟨a, Nat.le_refl _, by omega, fun k' h1 h2 => by omega, .inl ⟨zero, h⟩⟩
    rename_i has
    have slots : 512 / direntSize = 21 := rfl
    simp only [bind_ok, ideRead_ok, lay.dirEntrySize, slots] at h
    obtain ⟨buf, ⟨-, rfl⟩, h⟩ := h
    simp only [decodeDirent_shifted] at h
    split at h
    · rename_i j found
      simp only [bind_ok, ideWrite_ok, pure_ok] at h
      obtain ⟨disk, ⟨-, rfl⟩, h⟩ := h
      cases h
      simp only [List.find?_range_eq_some, List.mem_range, decide_eq_true_eq, Bool.not_eq_true', decide_eq_false_iff_not] at found
      obtain ⟨dead, ltj, first⟩ := found
      refine .inr ⟨a, Nat.le_refl _, by omega, fun k' h1 h2 => by omega, .inr ⟨has, rfl, j, ltj, dead, first, ?_⟩⟩
      rw [splice_shifted (by simp only [direntSize]; omega)]
    · rename_i found
      rw [List.find?_eq_none] at found
      have here : ∀ k', k' = a → all k' ≠ 0 ∧
          ∀ j, j < 21 → (decodeDirent v.disk (512 * all k') j).fType ≠ FileTypes.unknown.code := by
        rintro _ rfl
        exact ⟨has, fun j lt dead => found j (List.mem_range.2 lt) (by simpa using dead)⟩
      obtain ⟨no, same, all⟩ | ⟨k, ge, lt, before, rest⟩ := ih (a + 1) h
      · refine .inl ⟨no, same, fun k' h1 h2 => ?_⟩
        by_cases e : k' = a
        · exact here k' e
        · exact all k' (by omega) (by omega)
      · refine .inr ⟨k, by omega, by omega, fun k' h1 h2 => ?_, rest⟩
        by_cases e : k' = a
        · exact here k' e
        · exact before k' (by omega) h2

/-- The entry goes to the first slot that is dead or in a block that does not exist. -/
structure FirstFree (v : Vnode) (k₀ j₀ : Nat) : Prop where
  blocks : ∀ k, k < k₀ → FullBlock v k
  slots : ∀ j, j < j₀ → blockRef v.disk v.inode k₀ ≠ 0 ∧ (entryAt v.disk v.inode k₀ j).fType ≠ FileTypes.unknown.code

/-- Where the entry went there was room for it. -/
theorem Placed.room {k₀ j₀ : Nat} (wf : DirBlocks part n v) (placed : Placed part n v v' e k₀ j₀) (first : FirstFree v k₀ j₀) :
    ¬ NoRoom n v := by
  have lt := placed.block
  have notFull : ¬ FullBlock v k₀ := fun full => placed.free.elim full.1 (full.2 j₀ placed.slot)
  rintro (full | ⟨k, -, before, empty, blocks⟩)
  · exact notFull (full k₀ lt)
  rcases Nat.lt_trichotomy k k₀ with less | rfl | more
  · exact (first.blocks k less).1 empty
  · obtain ⟨i, -, inside, is, clear⟩ := placed.grow.free k (by omega) empty placed.has
    rcases blocks with none | ⟨rfl, i', only⟩
    · exact clear (none i inside)
    -- the table is new too
    have noTable : blockRef v.disk v.inode 140 = 0 := by
      by_contra has
      exact wf.table has empty
    have table : blockRef v'.disk v'.inode 140 ≠ 0 := fun zero => placed.has (blockRef_none (by omega) (by omega) zero)
    obtain ⟨j, -, insidej, isj, clearj⟩ := placed.grow.free 140 (by omega) noTable table
    have one : ∀ l, l < n → ¬ v.blockBitmap.Set l → l = i' := by
      intro l ltl free
      by_contra ne
      exact free (only.others l ltl ne)
    have same : i = j := (one i inside clear).trans (one j insidej clearj).symm
    exact absurd (placed.grow.wf.inj 12 140 (by omega) (by omega) placed.has (by rw [is, isj, same])) (by omega)
  · exact notFull (before k₀ more)

/-- **`sync_dir_entry`** puts the entry into the first free slot or leaves the directory as it is. -/
theorem syncDirEntry_placed (lay : Layout part n) (map : BlockMap part n v.blockBitmap) (wf : DirBlocks part n v)
    {ok : Bool} (h : syncDirEntry part v e = .ok (ok, v')) :
    (ok = false ∧ Crowded part n v v') ∨ (ok = true ∧ ∃ k₀ j₀, Placed part n v v' e k₀ j₀ ∧ FirstFree v k₀ j₀) := by
  simp only [syncDirEntry, bind_ok, assertThat_ok, exists_const] at h
  obtain ⟨-, all, collected, h⟩ := h
  obtain ⟨-, refs⟩ := allBlocks_ok collected
  rw [List.range_eq_range'] at h
  have full : ∀ m, m ≤ 140 → (∀ k', 0 ≤ k' → k' < m → all k' ≠ 0 ∧
      ∀ j, j < 21 → (decodeDirent v.disk (512 * all k') j).fType ≠ FileTypes.unknown.code) → ∀ k', k' < m → FullBlock v k' := by
    intro m le before k' lt
    simp only [FullBlock, entryAt, ← refs k' (by omega)]
    exact before k' (by omega) lt
  obtain ⟨rfl, rfl, before⟩ | ⟨k, -, lt, before, rest⟩ := syncBlocks_cases lay _ _ h
  · exact .inl ⟨rfl, .full (full 140 (Nat.le_refl _) before) rfl⟩
  simp only [Nat.zero_add] at lt
  have full := full k (by omega) before
  rw [refs k lt] at rest
  obtain ⟨zero, new⟩ | ⟨has, rfl, j, ltj, dead, first, rfl⟩ := rest
  · obtain crowded | ⟨yes, placed⟩ := syncNewBlock_ok lay map wf refs lt zero full new
    · exact .inl crowded
    · exact .inr ⟨yes, k, 0, placed, full, fun j lt => absurd lt (Nat.not_lt_zero j)⟩
  · exact .inr ⟨rfl, k, j, placed_reuse lay map wf lt ltj has dead, full, fun j' lt' => ⟨has, first j' lt'⟩⟩

/-- **`sync_dir_entry`** inserts the entry or leaves the directory as it is. -/
theorem syncDirEntry_ok (lay : Layout part n) (map : BlockMap part n v.blockBitmap) (wf : DirSlots part n v selfNo parentNo)
    {ok : Bool} (h : syncDirEntry part v x.entry = .ok (ok, v')) :
    (ok = false ∧ Refused part n v v') ∨ (ok = true ∧ ∃ k₀ j₀, Inserted part n v v' x k₀ j₀) := by
  obtain ⟨no, crowded⟩ | ⟨yes, k₀, j₀, placed, -⟩ := syncDirEntry_placed lay map wf.toBlocks h
  · exact .inl ⟨no, crowded.refused lay⟩
  · exact .inr ⟨yes, k₀, j₀, placed.inserted wf.used⟩

end Sync

section Wf

variable {part : Partition} {n : Nat} {v v' : Vnode} {x : Item} {selfNo parentNo k₀ j₀ : Nat}

/-- A directory keeps its entries when its sectors and its bits are kept. -/
theorem DirSlots.frame (wf : DirSlots part n v selfNo parentNo) (secs : v'.inode.iSectors = v.inode.iSectors)
    (range : v'.inode.InRange) (same : ∀ lba, Owns (blockRef v.disk v.inode) lba → SameSector v.disk v'.disk lba)
    (bits : ∀ i, Owns (blockRef v.disk v.inode) (part.sb.dataStartLba + i) → v.blockBitmap.Set i → v'.blockBitmap.Set i) :
    DirSlots part n v' selfNo parentNo ∧ (∀ k j y, ItemAt v' k j y ↔ ItemAt v k j y) ∧
      ∀ k, k < 141 → blockRef v'.disk v'.inode k = blockRef v.disk v.inode k := by
  have secs' : ∀ k, v'.inode.sec k = v.inode.sec k := fun k => by simp only [Inode.sec, secs]
  have refs : ∀ k, k < 141 → blockRef v'.disk v'.inode k = blockRef v.disk v.inode k := fun k lt =>
    blockRef_congr secs' (fun has => same _ ⟨has, 140, by omega, rfl⟩) lt
  have entries : ∀ k j, k < 140 → j < 21 → blockRef v.disk v.inode k ≠ 0 →
      entryAt v'.disk v'.inode k j = entryAt v.disk v.inode k j := fun k j lt ltj has =>
    entryAt_congr (refs k (by omega)) (same _ (owns_ref (by omega) has)) ltj
  have items : ∀ k j y, ItemAt v' k j y ↔ ItemAt v k j y := by
    intro k j y
    constructor
    · intro at_
      have lt := at_.block
      have has := at_.has
      rw [refs k (by omega)] at has
      exact ⟨lt, at_.slot, has, (entries k j lt at_.slot has).symm.trans at_.entry⟩
    · intro at_
      have lt := at_.block
      exact ⟨lt, at_.slot, by rw [refs k (by omega)]; exact at_.has, (entries k j lt at_.slot at_.has).trans at_.entry⟩
  refine ⟨⟨wf.blocks.congr refs bits, fun k lt => ?_, range, ?_, fun k pos lt => ?_, fun has => ?_, fun k j lt ltj has => ?_, ?_, ?_, ?_,
    fun k pos lt has => ?_⟩, items, refs⟩
  · rw [refs k lt]
    exact wf.onDisk k lt
  · rw [refs 0 (by omega)]
    exact wf.first
  · rw [refs k lt]
    exact wf.notRoot k pos lt
  · rw [refs 12 (by omega)]
    rw [secs'] at has
    exact wf.table has
  · rw [refs k (by omega)] at has
    rw [entries k j lt ltj has]
    exact wf.used k j lt ltj has
  · obtain ⟨y, at_, rest⟩ := wf.dot
    exact ⟨y, (items 0 0 y).2 at_, rest⟩
  · obtain ⟨y, at_, rest⟩ := wf.dotDot
    exact ⟨y, (items 0 1 y).2 at_, rest⟩
  · intro k j y at_
    exact wf.dots k j y ((items ..).1 at_)
  · rw [refs k (by omega)] at has
    obtain ⟨j, y, at_⟩ := wf.busy k pos lt has
    exact ⟨j, y, (items ..).2 at_⟩

theorem DirWf.frame (wf : DirWf part n v selfNo parentNo) (secs : v'.inode.iSectors = v.inode.iSectors)
    (range : v'.inode.InRange) (same : ∀ lba, Owns (blockRef v.disk v.inode) lba → SameSector v.disk v'.disk lba)
    (bits : ∀ i, Owns (blockRef v.disk v.inode) (part.sb.dataStartLba + i) → v.blockBitmap.Set i → v'.blockBitmap.Set i) :
    DirWf part n v' selfNo parentNo ∧ (∀ k j y, ItemAt v' k j y ↔ ItemAt v k j y) ∧
      ∀ k, k < 141 → blockRef v'.disk v'.inode k = blockRef v.disk v.inode k := by
  obtain ⟨slots, items, refs⟩ := wf.slots.frame secs range same bits
  refine ⟨slots.wf (fun k j y k' j' y' at_ at' => ?_) (fun k j y k' j' y' at_ at' => ?_), items, refs⟩
  · exact wf.names k j y k' j' y' ((items ..).1 at_) ((items ..).1 at')
  · exact wf.numbers k j y k' j' y' ((items ..).1 at_) ((items ..).1 at')

/-- A directory with a new entry. -/
theorem Inserted.slots (lay : Layout part n) (wf : DirSlots part n v selfNo parentNo) (ordinary : x.Ordinary)
    (ins : Inserted part n v v' x k₀ j₀) : DirSlots part n v' selfNo parentNo := by
  have old : ∀ {k j y}, ItemAt v k j y → ItemAt v' k j y := fun at_ => (ins.items ..).2 (.inl at_)
  have kept : ∀ k, k < 141 → blockRef v.disk v.inode k ≠ 0 → blockRef v'.disk v'.inode k ≠ 0 := by
    intro k lt has
    rw [ins.grow.kept k lt has]
    exact has
  refine ⟨ins.grow.wf, ins.onDisk, ?_, kept 0 (by omega) wf.first, fun k pos lt is => ?_, ins.table, ins.used, ?_, ?_, ?_,
    fun k pos lt has => ?_⟩
  · apply ins.grow.wf.inRange lay <;> rw [ins.inode]
    · exact wf.range.iNo
    · exact Nat.mod_lt _ (by decide)
  · have ds := lay.dataStartLba
    by_cases zero : blockRef v.disk v.inode k = 0
    · obtain ⟨i, posi, -, is', -⟩ := ins.grow.free k lt zero (by omega)
      omega
    · rw [ins.grow.kept k lt zero] at is
      exact wf.notRoot k pos lt is
  · obtain ⟨y, at_, rest⟩ := wf.dot
    exact ⟨y, old at_, rest⟩
  · obtain ⟨y, at_, rest⟩ := wf.dotDot
    exact ⟨y, old at_, rest⟩
  · intro k j y at_ dots
    rcases (ins.items ..).1 at_ with at_ | ⟨-, -, rfl⟩
    · exact wf.dots k j y at_ dots
    · exact absurd ordinary dots
  · by_cases zero : blockRef v.disk v.inode k = 0
    · obtain rfl := ins.news k lt zero has
      exact ⟨j₀, x, (ins.items ..).2 (.inr ⟨rfl, rfl, rfl⟩)⟩
    · obtain ⟨j, y, at_⟩ := wf.busy k pos lt zero
      exact ⟨j, y, old at_⟩

/-- A directory with a new entry under a new name and number. -/
theorem Inserted.wf (lay : Layout part n) (wf : DirWf part n v selfNo parentNo) (ordinary : x.Ordinary)
    (freshName : ∀ k j y, ItemAt v k j y → y.name ≠ x.name)
    (freshNumber : ∀ k j y, ItemAt v k j y → y.Ordinary → y.iNo ≠ x.iNo) (ins : Inserted part n v v' x k₀ j₀) :
    DirWf part n v' selfNo parentNo := by
  refine (ins.slots lay wf.slots ordinary).wf ?_ ?_
  · intro k j y k' j' y' at_ at' same
    rcases (ins.items ..).1 at_ with at_ | ⟨rfl, rfl, rfl⟩ <;> rcases (ins.items ..).1 at' with at' | ⟨rfl, rfl, rfl⟩
    · exact wf.names k j y k' j' y' at_ at' same
    · exact absurd same (freshName _ _ _ at_)
    · exact absurd same.symm (freshName _ _ _ at')
    · exact ⟨rfl, rfl⟩
  · intro k j y k' j' y' at_ at' ord ord' same
    rcases (ins.items ..).1 at_ with at_ | ⟨rfl, rfl, rfl⟩ <;> rcases (ins.items ..).1 at' with at' | ⟨rfl, rfl, rfl⟩
    · exact wf.numbers k j y k' j' y' at_ at' ord ord' same
    · exact absurd same (freshNumber _ _ _ at_ ord)
    · exact absurd same.symm (freshNumber _ _ _ at' ord')
    · exact ⟨rfl, rfl⟩

/-- A directory that refused an entry. -/
theorem Refused.slots (wf : DirSlots part n v selfNo parentNo) (ref : Refused part n v v') :
    DirSlots part n v' selfNo parentNo ∧ (∀ k j y, ItemAt v' k j y ↔ ItemAt v k j y) ∧
      ∀ k, k < 141 → blockRef v'.disk v'.inode k = blockRef v.disk v.inode k := by
  refine wf.frame (by rw [ref.inode]) (by rw [ref.inode]; exact wf.range) (fun lba owns => ?_)
    (fun _ _ => by rw [ref.blockBitmap]; exact id)
  exact ref.step.data lba (wf.blocks.owned owns).ge id

theorem Refused.wf (wf : DirWf part n v selfNo parentNo) (ref : Refused part n v v') :
    DirWf part n v' selfNo parentNo ∧ (∀ k j y, ItemAt v' k j y ↔ ItemAt v k j y) ∧
      ∀ k, k < 141 → blockRef v'.disk v'.inode k = blockRef v.disk v.inode k := by
  refine wf.frame (by rw [ref.inode]) (by rw [ref.inode]; exact wf.range) (fun lba owns => ?_)
    (fun _ _ => by rw [ref.blockBitmap]; exact id)
  exact ref.step.data lba (wf.blocks.owned owns).ge id

end Wf

end Sparrow
