import Sparrow.Fs.Tree

/-!
# Which sectors a directory update writes

A coarse invariant of the disk that says nothing about entries or counts: the blocks an
inode refers to are data blocks in use, and the blocks that hold indirect tables (`T`) are
not used for anything else. It is enough to know that `sync_dir_entry` never writes the
inode table, so that the records in it are those `inode_sync` stored.
-/

namespace Sparrow
set_option autoImplicit false

/-- A block in use that holds no table. -/
def PlainBlock (part : Partition) (n : Nat) (b : Bitmap) (T : Nat → Prop) (lba : Nat) : Prop :=
  DataBlock part n b lba ∧ ¬ T lba

/-- The references of an inode: its table is one of `T`, its other blocks are not. -/
structure Refers (part : Partition) (n : Nat) (b : Bitmap) (T : Nat → Prop) (ino : Inode) : Prop where
  range : ino.InRange
  direct : ∀ k, k < 12 → ino.sec k ≠ 0 → PlainBlock part n b T (ino.sec k)
  table : ino.sec 12 ≠ 0 → T (ino.sec 12)

/-- The blocks of `T` are in use and list plain blocks. -/
structure Tables (part : Partition) (n : Nat) (disk : Image) (b : Bitmap) (T : Nat → Prop) : Prop where
  block : ∀ t, T t → DataBlock part n b t
  word : ∀ t, T t → ∀ k, 12 ≤ k → k < 140 → word32 disk (512 * t + 4 * (k - 12)) ≠ 0 →
    PlainBlock part n b T (word32 disk (512 * t + 4 * (k - 12)))

/-- Blocks in use stay in use and stay what they are. -/
structure Extends (part : Partition) (n : Nat) (b b' : Bitmap) (T T' : Nat → Prop) : Prop where
  block : ∀ lba, DataBlock part n b lba → DataBlock part n b' lba
  table : ∀ t, T t → T' t
  only : ∀ lba, DataBlock part n b lba → T' lba → T lba

section Blocks

variable {part : Partition} {n : Nat} {b b' b'' : Bitmap} {T T' T'' : Nat → Prop} {disk disk' : Image} {ino : Inode}
  {lba i : Nat}

theorem Extends.refl : Extends part n b b T T := ⟨fun _ h => h, fun _ h => h, fun _ _ h => h⟩

theorem Extends.trans (h : Extends part n b b' T T') (h' : Extends part n b' b'' T' T'') : Extends part n b b'' T T'' :=
  ⟨fun lba d => h'.block lba (h.block lba d), fun t ht => h'.table t (h.table t ht),
    fun lba d ht => h.only lba d (h'.only lba (h.block lba d) ht)⟩

theorem Extends.plain (ext : Extends part n b b' T T') (plain : PlainBlock part n b T lba) : PlainBlock part n b' T' lba :=
  ⟨ext.block lba plain.1, fun ht => plain.2 (ext.only lba plain.1 ht)⟩

theorem Refers.mono (ext : Extends part n b b' T T') (refs : Refers part n b T ino) : Refers part n b' T' ino :=
  ⟨refs.range, fun k lt has => ext.plain (refs.direct k lt has), fun has => ext.table _ (refs.table has)⟩

/-- The references depend on `i_sectors` only. -/
theorem Refers.congr {ino' : Inode} (refs : Refers part n b T ino) (range : ino'.InRange)
    (secs : ∀ k, ino'.sec k = ino.sec k) : Refers part n b T ino' := by
  refine ⟨range, fun k lt has => ?_, fun has => ?_⟩
  · rw [secs] at has ⊢
    exact refs.direct k lt has
  · rw [secs] at has ⊢
    exact refs.table has

/-- Every block reached from an inode is a plain one. -/
theorem Refers.reached (refs : Refers part n b T ino) (tables : Tables part n disk b T) {k : Nat} (lt : k < 140)
    (has : blockRef disk ino k ≠ 0) : PlainBlock part n b T (blockRef disk ino k) := by
  by_cases direct : k < 12
  · rw [blockRef_direct direct] at has ⊢
    exact refs.direct k direct has
  · by_cases table : ino.sec 12 = 0
    · exact absurd (blockRef_none (by omega) lt table) has
    · rw [blockRef_indirect (by omega) lt table] at has ⊢
      exact tables.word _ (refs.table table) k (by omega) lt has

/-- The inode after one of its references was changed. -/
theorem Refers.setSec (lay : Layout part n) (refs : Refers part n b T ino) {k : Nat} (lt : k < 13)
    (block : lba = 0 ∨ DataBlock part n b lba) (direct : k < 12 → lba ≠ 0 → ¬ T lba) (table : k = 12 → lba ≠ 0 → T lba) :
    Refers part n b T (ino.setSec k lba) := by
  refine ⟨⟨refs.range.iNo, refs.range.iSize, fun j => ?_⟩, fun j ltj has => ?_, fun has => ?_⟩
  all_goals rw [Inode.sec_setSec _ lt] at *
  · split
    · rcases block with rfl | block
      · decide
      · exact block.lt_pow lay
    · exact refs.range.iSectors j
  · split at has
    · rename_i e
      subst e
      rw [if_pos rfl]
      exact ⟨block.resolve_left has, direct ltj has⟩
    · rename_i ne
      rw [if_neg ne]
      exact refs.direct j ltj has
  · split at has
    · rename_i e
      rw [if_pos e]
      exact table e.symm has
    · rename_i ne
      rw [if_neg ne]
      exact refs.table has

theorem Refers.grown (refs : Refers part n b T ino) (c : Nat) : Refers part n b T { ino with iSize := addU32 ino.iSize c } :=
  refs.congr ⟨refs.range.iNo, Nat.mod_lt _ (by decide), refs.range.iSectors⟩ fun _ => rfl

/-- Counts and flags are no references. -/
theorem Refers.flags (refs : Refers part n b T ino) (cnt : Nat) (deny : Bool) :
    Refers part n b T { ino with iOpenCnts := cnt, writeDeny := deny } :=
  refs.congr ⟨refs.range.iNo, refs.range.iSize, refs.range.iSectors⟩ fun _ => rfl

/-- A write that spares the tables keeps them. -/
theorem Tables.frame {B N : Nat → Prop} (tables : Tables part n disk b T) (ext : Extends part n b b' T T)
    (frame : DiskFrame part B N disk disk') (out : ∀ t, T t → ¬ B t) : Tables part n disk' b' T := by
  refine ⟨fun t ht => ext.block t (tables.block t ht), fun t ht k ge lt => ?_⟩
  have same : word32 disk' (512 * t + 4 * (k - 12)) = word32 disk (512 * t + 4 * (k - 12)) := by
    apply word32_congr
    intro i hi
    rw [Nat.add_assoc]
    exact frame.data t (tables.block t ht).ge (out t ht) _ (by omega)
  rw [same]
  exact fun has => ext.plain (tables.word t ht k ge lt has)

/-- A table is written, a new one or one that was there. -/
theorem Tables.write (lay : Layout part n) (tables : Tables part n disk b T) (ext : Extends part n b b' T T')
    {t : Nat} (block : DataBlock part n b' t) (only : ∀ t', T' t' → t' ≠ t → T t') (all : Nat → Nat)
    (words : ∀ k, 12 ≤ k → k < 140 → all k = 0 ∨ PlainBlock part n b' T' (all k)) :
    Tables part n (splice disk (512 * t) (512 * 1) (tableImage all)) b' T' := by
  refine ⟨fun t' ht => ?_, fun t' ht k ge lt => ?_⟩
  · by_cases e : t' = t
    · rw [e]
      exact block
    · exact ext.block t' (tables.block t' (only t' ht e))
  · by_cases e : t' = t
    · subst e
      rw [word32_table ge lt]
      rcases words k ge lt with zero | plain
      · rw [zero]
        exact fun has => absurd rfl has
      · rw [Nat.mod_eq_of_lt (plain.1.lt_pow lay)]
        exact fun _ => plain
    · have same : word32 (splice disk (512 * t) (512 * 1) (tableImage all)) (512 * t' + 4 * (k - 12)) =
          word32 disk (512 * t' + 4 * (k - 12)) := by
        apply word32_congr
        intro i hi
        rw [Nat.add_assoc]
        exact (diskStep_data lay disk _ block.ge).data t' (tables.block t' (only t' ht e)).ge e _ (by omega)
      rw [same]
      exact fun has => ext.plain (tables.word t' (only t' ht e) k ge lt has)

theorem DataBlock.set (h : DataBlock part n b lba) : DataBlock part n (bitmapSet b i true) lba := by
  refine h.mono fun j _ set => ?_
  rw [set_bitmapSet]
  split
  · rfl
  · exact set

theorem dataBlock_new (lt : i < n) : DataBlock part n (bitmapSet b i true) (part.sb.dataStartLba + i) :=
  ⟨i, lt, rfl, by rw [set_bitmapSet, if_pos rfl]⟩

theorem not_dataBlock (clear : ¬ b.Set i) : ¬ DataBlock part n b (part.sb.dataStartLba + i) := by
  rintro ⟨j, -, is, set⟩
  exact clear ((show j = i by omega) ▸ set)

/-- A block is taken, as a plain one. -/
theorem Extends.take : Extends part n b (bitmapSet b i true) T T := ⟨fun _ h => h.set, fun _ h => h, fun _ _ h => h⟩

/-- A block is taken for a table. -/
theorem Extends.takeTable (clear : ¬ b.Set i) :
    Extends part n b (bitmapSet b i true) T (fun t => t = part.sb.dataStartLba + i ∨ T t) := by
  refine ⟨fun _ h => h.set, fun _ h => .inr h, fun lba block ht => ht.resolve_left ?_⟩
  rintro rfl
  exact not_dataBlock clear block

end Blocks

/-- What an update of a directory does to its inode and to the disk. -/
structure DirUpdate (part : Partition) (n : Nat) (v v' : Vnode) (T T' : Nat → Prop) : Prop where
  map : BlockMap part n v'.blockBitmap
  ext : Extends part n v.blockBitmap v'.blockBitmap T T'
  tables : Tables part n v'.disk v'.blockBitmap T'
  refs : Refers part n v'.blockBitmap T' v'.inode
  step : DiskStep part (fun _ => True) (fun _ => False) v.disk v'.disk
  deny : v'.inode.writeDeny = v.inode.writeDeny

section Updates

variable {part : Partition} {n : Nat} {v v' : Vnode} {T : Nat → Prop} {e : DirEntry} {ok : Bool}

theorem diskStep_any {B : Nat → Prop} {disk disk' : Image} (h : DiskStep part B (fun _ => False) disk disk') :
    DiskStep part (fun _ => True) (fun _ => False) disk disk' := h.mono (fun _ _ => trivial) fun _ h => h

/-- The entry is written into a plain block of the inode. -/
theorem DirUpdate.entry {w : Vnode} {T' : Nat → Prop} (lay : Layout part n) (up : DirUpdate part n v w T T') {lba : Nat}
    (plain : PlainBlock part n w.blockBitmap T' lba) (buf : Image) (c : Nat) :
    DirUpdate part n v ⟨splice w.disk (512 * lba) (512 * 1) buf, w.blockBitmap,
      { w.inode with iSize := addU32 w.inode.iSize c }⟩ T T' := by
  have step := diskStep_data lay w.disk buf plain.1.ge
  refine ⟨up.map, up.ext, up.tables.frame .refl step.toDiskFrame fun t ht e => ?_, up.refs.grown c,
    up.step.trans (diskStep_any step), up.deny⟩
  rw [e] at ht
  exact plain.2 ht

/-- A new block for a direct reference, or one the table already lists. -/
theorem DirUpdate.take (lay : Layout part n) (map : BlockMap part n v.blockBitmap) (tables : Tables part n v.disk v.blockBitmap T)
    (refs : Refers part n v.blockBitmap T v.inode) {i : Nat} {disk : Image} (pos : 0 < i) (inside : i < n)
    (written : syncBlock part v.disk (bitmapSet v.blockBitmap i true) (part.sb.dataStartLba + i) = .ok disk) :
    DirUpdate part n v ⟨disk, bitmapSet v.blockBitmap i true, v.inode⟩ T T := by
  have step := syncBlock_step lay inside written
  exact ⟨map.set pos inside true, .take, tables.frame .take step.toDiskFrame fun _ _ h => h, refs.mono .take, diskStep_any step, rfl⟩

theorem not_table_of_clear {disk : Image} {b : Bitmap} (tables : Tables part n disk b T) {i : Nat} (clear : ¬ b.Set i) :
    ¬ T (part.sb.dataStartLba + i) := fun ht => not_dataBlock clear (tables.block _ ht)

/-- A new table and its first block. -/
theorem DirUpdate.newTable (lay : Layout part n) (tables : Tables part n v.disk v.blockBitmap T)
    (refs : Refers part n v.blockBitmap T v.inode) (map : BlockMap part n v.blockBitmap) {all : Nat → Nat} {i i' : Nat}
    {disk disk' : Image} (listed : ∀ j, j < 140 → all j = 0 ∨ PlainBlock part n v.blockBitmap T (all j))
    (taken : BlockTaken part n v i disk) (taken' : BlockTaken part n ⟨disk, bitmapSet v.blockBitmap i true, v.inode⟩ i' disk')
    (h : writeFirstEntry part ⟨splice disk' (512 * (part.sb.dataStartLba + i)) (512 * 1)
        (tableImage fun k => if k = 12 then part.sb.dataStartLba + i' else all k),
      bitmapSet (bitmapSet v.blockBitmap i true) i' true, v.inode.setSec 12 (part.sb.dataStartLba + i)⟩ e
      (part.sb.dataStartLba + i') = .ok (ok, v')) : DirUpdate part n v v' T (fun t => t = part.sb.dataStartLba + i ∨ T t) := by
  obtain ⟨-, -, rfl⟩ := writeFirstEntry_ok lay h
  have up := DirUpdate.take lay map tables refs taken.pos taken.inside taken.written
  have up' := DirUpdate.take lay up.map up.tables up.refs taken'.pos taken'.inside taken'.written
  have ne : i' ≠ i := by
    rintro rfl
    exact taken'.clear (by rw [set_bitmapSet, if_pos rfl])
  have ext : Extends part n v.blockBitmap (bitmapSet (bitmapSet v.blockBitmap i true) i' true) T
      (fun t => t = part.sb.dataStartLba + i ∨ T t) := (Extends.takeTable taken.clear).trans .take
  have block : DataBlock part n (bitmapSet (bitmapSet v.blockBitmap i true) i' true) (part.sb.dataStartLba + i) :=
    (dataBlock_new taken.inside).set
  have new : PlainBlock part n (bitmapSet (bitmapSet v.blockBitmap i true) i' true)
      (fun t => t = part.sb.dataStartLba + i ∨ T t) (part.sb.dataStartLba + i') := by
    refine ⟨dataBlock_new taken'.inside, ?_⟩
    rintro (same | ht)
    · omega
    · exact not_table_of_clear up.tables taken'.clear ht
  have old := tables.frame .refl (syncBlock_step lay taken.inside taken.written).toDiskFrame fun _ _ h => h
  have old' := old.frame .refl (syncBlock_step lay taken'.inside taken'.written).toDiskFrame fun _ _ h => h
  have tables' := old'.write lay ext block (fun t ht ne => ht.resolve_left ne)
    (fun j => if j = 12 then part.sb.dataStartLba + i' else all j) (fun j _ ltj => by
      by_cases e : j = 12
      · rw [if_pos e]
        exact .inr new
      · rw [if_neg e]
        exact (listed j ltj).imp_right ext.plain)
  have refs' := (refs.mono ext).setSec lay (k := 12) (by omega) (.inr block) (fun e => by omega) (fun _ _ => .inl rfl)
  exact DirUpdate.entry lay (w := ⟨_, _, v.inode.setSec 12 _⟩)
    ⟨up'.map, ext, tables', refs', (up.step.trans up'.step).trans (diskStep_any (diskStep_data lay _ _ block.ge)), rfl⟩ new _ _

/-- The branch of `sync_dir_entry` for a block that does not exist yet. -/
theorem syncNewBlock_update (lay : Layout part n) (map : BlockMap part n v.blockBitmap)
    (tables : Tables part n v.disk v.blockBitmap T) (refs : Refers part n v.blockBitmap T v.inode) {all : Nat → Nat} {k : Nat}
    (collected : ∀ k, k < 140 → all k = blockRef v.disk v.inode k) (lt : k < 140) (before : 12 < k → v.inode.sec 12 ≠ 0)
    (h : syncNewBlock part v all e k = .ok (ok, v')) : ∃ T', DirUpdate part n v v' T T' := by
  have listed : ∀ j, j < 140 → all j = 0 ∨ PlainBlock part n v.blockBitmap T (all j) := by
    intro j ltj
    rw [collected j ltj]
    exact or_iff_not_imp_left.2 (refs.reached tables ltj)
  cases syncNewBlock_cases lay map h with
  | full _ => exact ⟨T, map, .refl, tables, refs, .refl, rfl⟩
  | @direct i _ _ _ taken direct entry =>
    obtain ⟨-, -, rfl⟩ := writeFirstEntry_ok lay entry
    have up := DirUpdate.take lay map tables refs taken.pos taken.inside taken.written
    have notTable := not_table_of_clear tables taken.clear
    have new : DataBlock part n (bitmapSet v.blockBitmap i true) (part.sb.dataStartLba + i) := dataBlock_new taken.inside
    have refs' := up.refs.setSec lay (k := k) (by omega) (.inr new) (fun _ _ => notTable) (fun e => by omega)
    exact ⟨T, DirUpdate.entry lay (w := ⟨_, _, v.inode.setSec k _⟩)
      ⟨up.map, up.ext, up.tables, refs', up.step, up.deny⟩ ⟨new, notTable⟩ _ _⟩
  | single taken _ _ =>
    have up := DirUpdate.take lay map tables refs taken.pos taken.inside taken.written
    refine ⟨T, map, .refl, ?_, ?_, up.step, rfl⟩
    · exact tables.frame .refl (syncBlock_step lay taken.inside taken.written).toDiskFrame fun _ _ h => h
    · exact refs.setSec lay (by omega) (.inl rfl) (fun e => by omega) fun _ has => absurd rfl has
  | table taken taken' twelve _ entry =>
    subst twelve
    exact ⟨_, .newTable lay tables refs map listed taken taken' entry⟩
  | @indirect i disk _ _ taken past entry =>
    obtain ⟨-, -, rfl⟩ := writeFirstEntry_ok lay entry
    have up := DirUpdate.take lay map tables refs taken.pos taken.inside taken.written
    have new : PlainBlock part n (bitmapSet v.blockBitmap i true) T (part.sb.dataStartLba + i) :=
      ⟨dataBlock_new taken.inside, not_table_of_clear tables taken.clear⟩
    have block := tables.block _ (refs.table (before past))
    have tables' := up.tables.write lay .refl block.set (fun t ht _ => ht)
      (fun j => if j = k then part.sb.dataStartLba + i else all j) (fun j _ ltj => by
        by_cases e : j = k
        · rw [if_pos e]
          exact .inr new
        · rw [if_neg e]
          exact (listed j ltj).imp_right Extends.take.plain)
    have up' : DirUpdate part n v ⟨splice disk (512 * v.inode.sec 12) (512 * 1)
        (tableImage fun j => if j = k then part.sb.dataStartLba + i else all j), _, v.inode⟩ T T :=
      ⟨up.map, up.ext, tables', up.refs, up.step.trans (diskStep_any (diskStep_data lay _ _ block.ge)), rfl⟩
    exact ⟨T, up'.entry lay new _ _⟩

/-- **`sync_dir_entry`** writes the block bitmap and blocks of the directory, nothing else. -/
theorem syncDirEntry_update (lay : Layout part n) (map : BlockMap part n v.blockBitmap)
    (tables : Tables part n v.disk v.blockBitmap T) (refs : Refers part n v.blockBitmap T v.inode)
    (h : syncDirEntry part v e = .ok (ok, v')) : ∃ T', DirUpdate part n v v' T T' := by
  simp only [syncDirEntry, bind_ok, assertThat_ok, exists_const] at h
  obtain ⟨-, all, read, h⟩ := h
  obtain ⟨-, collected⟩ := allBlocks_ok read
  rw [List.range_eq_range'] at h
  have same : DirUpdate part n v v T T := ⟨map, .refl, tables, refs, .refl, rfl⟩
  obtain ⟨rfl, rfl, -⟩ | ⟨k, -, lt, before, rest⟩ := syncBlocks_cases lay _ _ h
  · exact ⟨T, same⟩
  simp only [Nat.zero_add] at lt
  obtain ⟨-, new⟩ | ⟨has, -, j, ltj, -, -, rfl⟩ := rest
  · refine syncNewBlock_update lay map tables refs collected lt (fun past zero => ?_) new
    have := (before 12 (by omega) past).1
    rw [collected 12 (by omega)] at this
    exact this (blockRef_none (by omega) (by omega) zero)
  · rw [collected k lt] at has ⊢
    have plain := refs.reached tables lt has
    have step : DiskStep part (fun x => x = blockRef v.disk v.inode k) (fun _ => False) v.disk
        (splice v.disk (512 * blockRef v.disk v.inode k + direntSize * j) direntSize e.image) := by
      rw [← splice_shifted (n := 512) (by simp only [direntSize]; omega)]
      exact diskStep_data lay _ _ plain.1.ge
    refine ⟨T, map, .refl, tables.frame .refl step.toDiskFrame fun t ht e => ?_, refs.grown _, diskStep_any step, rfl⟩
    rw [e] at ht
    exact plain.2 ht

end Updates

/-- A disk on which every inode record refers to blocks in use and carries no `write_deny`. -/
structure DiskSound (part : Partition) (n : Nat) (disk : Image) (b : Bitmap) (T : Nat → Prop) : Prop where
  map : BlockMap part n b
  tables : Tables part n disk b T
  slots : ∀ m, m < 4096 → Refers part n b T (slot part disk m) ∧ (slot part disk m).writeDeny = false

section Records

variable {part : Partition} {n : Nat} {disk disk' : Image} {b : Bitmap} {T T' : Nat → Prop}

/-- A directory update leaves the records alone. -/
theorem DiskSound.dirUpdate {v v' : Vnode} (sound : DiskSound part n v.disk v.blockBitmap T) (up : DirUpdate part n v v' T T') :
    DiskSound part n v'.disk v'.blockBitmap T' := by
  refine ⟨up.map, up.tables, fun m lt => ?_⟩
  rw [up.step.slot_eq lt fun h => h]
  exact ⟨(sound.slots m lt).1.mono up.ext, (sound.slots m lt).2⟩

/-- **`inode_sync`** stores a record without `write_deny`. -/
theorem DiskSound.inodeSync {ino : Inode} (lay : Layout part n) (sound : DiskSound part n disk b T)
    (refs : Refers part n b T ino) (h : inodeSync part disk ino = .ok disk') : DiskSound part n disk' b T := by
  have step := inodeSync_step lay h
  refine ⟨sound.map, sound.tables.frame .refl step.toDiskFrame fun _ _ h => h, fun m lt => ?_⟩
  by_cases e : m = ino.iNo % 256
  · have stored : SameStored (slot part (splice disk (slotAddr part m) inodeSize ino.pure.image) m) ino ∧ _ :=
      decode_stored refs.range (slotAddr part m)
    rw [inodeSync_ok h, ← e]
    exact ⟨refs.congr (stored.1.inRange refs.range) stored.1.sec, stored.2.1⟩
  · rw [step.slot_eq lt e]
    exact sound.slots m lt

theorem DiskSound.inodeBits {ib : Bitmap} {f : Nat} (lay : Layout part n) (sound : DiskSound part n disk b T) (low : f < 4096)
    (h : bitmapSync disk part.sb.inodeBitmapLba ib f = .ok disk') : DiskSound part n disk' b T := by
  have frame : DiskFrame part (fun _ => False) (fun _ => False) disk disk' := by
    rw [bitmapSync_inode low h]
    exact diskFrame_inodeBits lay _ _
  refine ⟨sound.map, sound.tables.frame .refl frame fun _ _ h => h, fun m lt => ?_⟩
  rw [frame.slot_eq lt fun h => h]
  exact sound.slots m lt

/-- A new inode refers to nothing. -/
theorem refers_init {f : Nat} (lt : f < 2 ^ 32) : Refers part n b T (inodeInit f) := by
  have zero : ∀ k, (inodeInit f).sec k = 0 := by
    intro k
    simp only [inodeInit, Inode.sec]
    split <;> rfl
  exact ⟨inodeInit_inRange lt, fun k _ has => absurd (zero k) has, fun has => absurd (zero 12) has⟩

/-- A record of zeros refers to nothing. -/
theorem slot_zeros {m : Nat} (zeros : ∀ i, i < inodeSize → disk (slotAddr part m + i) = 0#8) :
    slot part disk m = inodeInit 0 := by
  have word : ∀ o, o + 4 ≤ inodeSize → word32 disk (slotAddr part m + o) = 0 := by
    intro o ho
    have same : word32 disk (slotAddr part m + o) = word32 (fun _ => 0#8) 0 := by
      apply word32_congr
      intro i hi
      rw [Nat.add_assoc]
      exact zeros _ (by omega)
    rw [same]
    rfl
  simp only [inodeSize] at word
  have secs : ∀ k : Fin 13, word32 disk (slotAddr part m + 16 + 4 * k.val) = 0 := fun k => by
    rw [Nat.add_assoc]
    exact word _ (by have := k.isLt; omega)
  have first := word 0 (by omega)
  rw [Nat.add_zero] at first
  simp only [slot, decodeInode, first, word 4 (by omega), word 8 (by omega), word 12 (by omega), secs, inodeInit]
  rfl

/-- A partition just formatted has one record, the root directory's. -/
theorem Formatted.diskSound (lay : Layout part n) (fresh : Formatted part n disk) :
    DiskSound part n disk (mountedFs part disk).blockBitmap (fun _ => False) := by
  have map := fresh.blockMap lay
  have blocks := lay.blocks
  refine ⟨map, ⟨fun _ h => h.elim, fun _ h => h.elim⟩, fun m lt => ?_⟩
  by_cases root : m = 0
  · subst root
    obtain ⟨same, deny⟩ := fresh.rootSlot lay
    have start : DataBlock part n (mountedFs part disk).blockBitmap part.sb.dataStartLba := ⟨0, by omega, rfl, map.root⟩
    have init : Refers part n (mountedFs part disk).blockBitmap (fun _ => False) (inodeInit 0) := refers_init (by decide)
    have refs := init.setSec lay (k := 0) (by omega) (.inr start) (fun _ _ h => h) (fun e => by omega)
    have range : (rootInode part).InRange := ⟨refs.range.iNo, show 2 * direntSize < 2 ^ 32 by decide, refs.range.iSectors⟩
    have rootRefs : Refers part n (mountedFs part disk).blockBitmap (fun _ => False) (rootInode part) :=
      refs.congr range fun _ => rfl
    exact ⟨rootRefs.congr (same.inRange range) same.sec, deny⟩
  · have empty : slot part disk m = inodeInit 0 := by
      apply slot_zeros
      intro i hi
      simp only [slotAddr, inodeSize] at hi ⊢
      rw [Nat.add_assoc, fresh.inodeTable _ (by omega)]
      exact if_neg (by simp only [inodeSize]; omega)
    rw [empty]
    exact ⟨refers_init (by decide), rfl⟩

end Records

end Sparrow
