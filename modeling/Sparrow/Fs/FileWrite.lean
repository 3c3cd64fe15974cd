import Sparrow.Fs.Blocks

/-!
# Writing a file

`file_write` appends. First it makes sure that the file has a block for every byte it is
going to have, and one more when the end falls on a block boundary; then it stores the
data sector by sector. `writeFile_ok` says what a successful call did.
-/

namespace Sparrow
set_option autoImplicit false

/-- Block addresses are collected in `all` while the table is not written yet: the
references are `ref`, of which the inode has the direct ones. -/
structure Growing (part : Partition) (n : Nat) (v w : Vnode) (ref ref' : Nat → Nat) : Prop where
  grow : Grow part n v.blockBitmap w.blockBitmap ref ref'
  direct : ∀ k, k < 12 → w.inode.sec k = ref' k
  table : w.inode.sec 12 = v.inode.sec 12
  step : DiskStep part (fun _ => False) (fun _ => False) v.disk w.disk
  inode : w.inode = { v.inode with iSectors := w.inode.iSectors }

/-- The loop was to get `m` blocks from block `a` on and got `d`, whose addresses it
collected. The first one was the first free block. -/
structure Collected (part : Partition) (n : Nat) (v : Vnode) (all ref : Nat → Nat) (a m d : Nat) (g : Growth)
    (ref' : Nat → Nat) : Prop where
  le : d ≤ m
  complete : g.ok = true → d = m
  growing : Growing part n v g.v ref ref'
  others : ∀ k, k < a ∨ a + d ≤ k → ref' k = ref k ∧ g.all k = all k
  news : ∀ k, a ≤ k → k < a + d → g.all k = ref' k ∧ ref' k ≠ 0
  first : ∀ j, j < n → ¬ v.blockBitmap.Set j → 0 < m → 0 < d ∧ ∃ i, i ≤ j ∧ ¬ v.blockBitmap.Set i ∧
    g.all a = part.sb.dataStartLba + i
  synced : ∀ X, SyncedBut part X v.disk v.blockBitmap →
    SyncedBut part (fun j => X j ∧ ∀ k i, a ≤ k → k < a + d → g.all k = part.sb.dataStartLba + i → j / 4096 ≠ i / 4096)
      g.v.disk g.v.blockBitmap

section Grow

variable {part : Partition} {n a m d i : Nat} {v : Vnode} {all ref ref' : Nat → Nat} {g : Growth}

/-- No block was to be had, or none was asked for. -/
theorem Collected.none (map : BlockMap part n v.blockBitmap) (wf : BlocksWf part n v.blockBitmap ref)
    (direct : ∀ k, k < 12 → v.inode.sec k = ref k) {ok : Bool} (complete : ok = true → m = 0)
    (full : 0 < m → ∀ j, j < n → v.blockBitmap.Set j) : Collected part n v all ref a m 0 ⟨ok, v, all⟩ ref where
  le := Nat.zero_le m
  complete h := (complete h).symm
  growing := ⟨.refl map wf, direct, rfl, .refl, rfl⟩
  others _ _ := ⟨rfl, rfl⟩
  news k h1 h2 := by omega
  first j inside clear pos := absurd (full pos j inside) clear
  synced _ h := h.mono fun _ x => ⟨x, fun k l h1 h2 => by omega⟩

/-- One block more, before the others. -/
theorem Collected.cons (lay : Layout part n) {disk : Image} {ino : Inode} (inside : i < n) (clear : ¬ v.blockBitmap.Set i)
    (below : ∀ j, j < i → v.blockBitmap.Set j)
    (one : Grow part n v.blockBitmap (bitmapSet v.blockBitmap i true) ref (Function.update ref a (part.sb.dataStartLba + i)))
    (table : ino.sec 12 = v.inode.sec 12) (same : ino = { v.inode with iSectors := ino.iSectors })
    (written : syncBlock part v.disk (bitmapSet v.blockBitmap i true) (part.sb.dataStartLba + i) = .ok disk)
    (rest : Collected part n ⟨disk, bitmapSet v.blockBitmap i true, ino⟩
      (fun k => if k = a then part.sb.dataStartLba + i else all k) (Function.update ref a (part.sb.dataStartLba + i)) (a + 1) m d
      g ref') : Collected part n v all ref a (m + 1) (d + 1) g ref' := by
  have ds := lay.dataStartLba
  have growing := rest.growing
  have mine := rest.others a (.inl (by omega))
  refine ⟨by have := rest.le; omega, fun ok => by rw [rest.complete ok],
    ⟨one.trans growing.grow, growing.direct, growing.table.trans table, (syncBlock_step lay inside written).trans growing.step, ?_⟩,
    fun k out => ?_, fun k h1 h2 => ?_, fun j lt free _ => ⟨by omega, i, ?_, clear, ?_⟩, fun X h => ?_⟩
  · rw [growing.inode]
    show { ino with iSectors := _ } = _
    rw [same]
  · obtain ⟨h1, h2⟩ := rest.others k (by omega)
    rw [h1, h2, if_neg (by omega), Function.update_of_ne (by omega)]
    exact ⟨rfl, rfl⟩
  · by_cases e : k = a
    · rw [e, mine.1, mine.2, if_pos rfl, Function.update_self]
      exact ⟨rfl, by omega⟩
    · exact rest.news k (by omega) (by omega)
  · by_contra lt'
    exact free (below j (by omega))
  · rw [mine.2, if_pos rfl]
  · refine (rest.synced _ (h.setSector lay inside written)).mono ?_
    rintro j ⟨⟨x, other⟩, out⟩
    refine ⟨x, fun k l h1 h2 is => ?_⟩
    by_cases e : k = a
    · rw [e, mine.2, if_pos rfl] at is
      rwa [← Nat.add_left_cancel is]
    · exact out k l (by omega) (by omega) is

/-- The loops that allocate one block after another. -/
theorem growBlocks_ok (lay : Layout part n) : ∀ (m a : Nat) {v : Vnode} {all ref : Nat → Nat} {g : Growth},
    growBlocks part (List.range' a m) v all = .ok g → BlockMap part n v.blockBitmap →
    BlocksWf part n v.blockBitmap ref → a + m ≤ 140 → (∀ k, a ≤ k → k < a + m → ref k = 0) →
    (∀ k, k < 12 → v.inode.sec k = ref k) → ∃ d ref', Collected part n v all ref a m d g ref' := by
  intro m
  induction m with
  | zero =>
    intro a v all ref g h map wf _ _ direct
    simp only [List.range'_zero, growBlocks, pure_ok] at h
    subst h
    exact ⟨0, ref, .none map wf direct (fun _ => rfl) fun pos => absurd pos (Nat.lt_irrefl 0)⟩
  | succ m ih =>
    intro a v all ref g h map wf bound empty direct
    rw [List.range'_succ, growBlocks] at h
    split at h
    · rename_i b alloc
      rw [pure_ok] at h
      subst h
      obtain ⟨-, rfl, full⟩ | ⟨i, -, -, -, -, some_, -⟩ := blockBitmapAlloc_cases lay map alloc
      · exact ⟨0, ref, .none map wf direct nofun fun _ => full⟩
      · cases some_
    rename_i lba b alloc
    obtain ⟨none, -⟩ | ⟨i, pos, inside, clear, below, some_, rfl⟩ := blockBitmapAlloc_cases lay map alloc
    · cases none
    cases some_
    -- a direct block goes into the inode, an indirect one only into the table later
    have stored : ∃ ino disk, (∀ k, k < 12 → ino.sec k = Function.update ref a (part.sb.dataStartLba + i) k) ∧
        ino.sec 12 = v.inode.sec 12 ∧ ino = { v.inode with iSectors := ino.iSectors } ∧
        syncBlock part v.disk (bitmapSet v.blockBitmap i true) (part.sb.dataStartLba + i) = .ok disk ∧
        growBlocks part (List.range' (a + 1) m) ⟨disk, bitmapSet v.blockBitmap i true, ino⟩
          (fun k => if k = a then part.sb.dataStartLba + i else all k) = .ok g := by
      split at h
      · rename_i lt
        simp only [bind_ok, assertThat_ok, pure_ok, exists_const] at h
        obtain ⟨-, ino, rfl, disk, written, h⟩ := h
        refine ⟨_, disk, fun k ltk => ?_, ?_, rfl, written, h⟩
        · rw [Inode.sec_setSec _ (by omega)]
          by_cases e : k = a
          · rw [if_pos e, e, Function.update_self]
          · rw [if_neg e, Function.update_of_ne e, direct k ltk]
        · rw [Inode.sec_setSec _ (by omega), if_neg (by omega)]
      · rename_i ge
        simp only [bind_ok, pure_ok] at h
        obtain ⟨ino, rfl, disk, written, h⟩ := h
        exact ⟨_, disk, fun k ltk => by rw [Function.update_of_ne (by omega), direct k ltk], rfl, rfl, written, h⟩
    obtain ⟨ino, disk, secs, table, same, written, h⟩ := stored
    have one := Grow.one lay map wf a (by omega) (empty a (Nat.le_refl _) (by omega)) pos inside clear
    obtain ⟨d, ref', rest⟩ := ih (a + 1) h one.map one.wf (by omega)
      (fun k h1 h2 => by rw [Function.update_of_ne (by omega)]; exact empty k (by omega) (by omega)) secs
    exact ⟨d + 1, ref', .cons lay inside clear below one table same written rest⟩

end Grow

/-- The number of blocks of a file: one for the byte at every position up to `i_size`,
this one included. A file never written has none. -/
def fileBlocks (ino : Inode) : Nat := if ino.sec 0 = 0 then 0 else ino.iSize / 512 + 1

/-- The first `m` references of an inode are there, the others are not. -/
structure Filled (disk : Image) (ino : Inode) (m : Nat) : Prop where
  refs : ∀ k, k < 140 → (blockRef disk ino k ≠ 0 ↔ k < m)
  table : ino.sec 12 ≠ 0 ↔ 12 < m
  onDisk : ino.sec 12 ≤ maxLba

theorem Filled.blank {disk : Image} {ino : Inode} {m k : Nat} (filled : Filled disk ino m) (ge : m ≤ k) (lt : k < 140) :
    blockRef disk ino k = 0 := by
  by_contra some
  have := (filled.refs k lt).1 some
  omega

theorem Filled.noTable {disk : Image} {ino : Inode} {m : Nat} (filled : Filled disk ino m) (few : m ≤ 12) :
    ino.sec 12 = 0 := by
  by_contra some
  have := filled.table.1 some
  omega

/-- A file between two calls. -/
structure FileWf (part : Partition) (n : Nat) (v : Vnode) : Prop where
  blocks : BlocksWf part n v.blockBitmap (blockRef v.disk v.inode)
  filled : Filled v.disk v.inode (fileBlocks v.inode)
  range : v.inode.InRange
  empty : v.inode.sec 0 = 0 → v.inode.iSize = 0
  few : fileBlocks v.inode ≤ 140
  onDisk : ∀ k, 512 * k < v.inode.iSize → blockRef v.disk v.inode k ≤ maxLba

/-- A file never written. -/
theorem fileWf_empty {part : Partition} {n : Nat} {disk : Image} {b : Bitmap} {ino : Inode} (number : ino.iNo < 2 ^ 32)
    (size : ino.iSize = 0) (secs : ∀ k, ino.sec k = 0) : FileWf part n ⟨disk, b, ino⟩ := by
  have none : ∀ k, blockRef disk ino k = 0 := by
    intro k
    simp only [blockRef, secs]
    split
    · rfl
    split
    · rfl
    rfl
  have blocks : fileBlocks ino = 0 := if_pos (secs 0)
  refine ⟨⟨fun k _ has => absurd (none k) has, fun k _ _ _ has => absurd (none k) has⟩, ⟨fun k _ => ?_, ?_, ?_⟩,
    ⟨number, ?_, fun k => ?_⟩, fun _ => size, ?_, fun k lt => ?_⟩
  all_goals dsimp only
  · rw [none, blocks]
    omega
  · rw [secs, blocks]
    omega
  · rw [secs]
    exact Nat.zero_le _
  · rw [size]
    decide
  · rw [secs]
    decide
  · rw [blocks]
    decide
  · dsimp only at lt
    rw [size] at lt
    omega

/-- Block `i` is the first free one and the last free one in its sector of the bitmap. -/
structure LastInSector (n : Nat) (b : Bitmap) (i : Nat) : Prop where
  clear : ¬ b.Set i
  below : ∀ j, j < i → b.Set j
  last : ∀ j, j < n → j / 4096 = i / 4096 → j ≠ i → b.Set j

/-- The bit of block `i`, taken before the others, was written with the sector of another one unless no
other block of its sector was free. -/
theorem Collected.last {part : Partition} {n a m d i : Nat} {w : Vnode} {all ref ref' : Nat → Nat} {g : Growth} {b : Bitmap}
    (c : Collected part n w all ref a m d g ref') (pos : 0 < m) (taken : w.blockBitmap = bitmapSet b i true)
    (clear : ¬ b.Set i) (below : ∀ j, j < i → b.Set j)
    (apart : ∀ k l, a ≤ k → k < a + d → g.all k = part.sb.dataStartLba + l → i / 4096 ≠ l / 4096) : LastInSector n b i := by
  refine ⟨clear, below, fun l lt sector ne => ?_⟩
  by_contra free
  obtain ⟨got, k, le, clear', is⟩ := c.first l lt (by rwa [taken, set_bitmapSet, if_neg ne]) pos
  have after : i ≤ k := by
    by_contra before
    exact clear' (by rw [taken, set_bitmapSet, if_neg (by omega)]; exact below k (by omega))
  exact apart a k (Nat.le_refl _) (by omega) is (by omega)

/-- The file has `m` blocks now, its data is untouched. -/
structure Extended (part : Partition) (n : Nat) (v w : Vnode) (m : Nat) : Prop where
  grow : Grow part n v.blockBitmap w.blockBitmap (blockRef v.disk v.inode) (blockRef w.disk w.inode)
  filled : Filled w.disk w.inode m
  step : DiskStep part (fun lba => lba ≠ 0 ∧ lba = w.inode.sec 12) (fun _ => False) v.disk w.disk
  inode : w.inode = { v.inode with iSectors := w.inode.iSectors }

/-- The bits of the new blocks are on disk, but for the table's when no other block of its
bitmap sector was free. -/
structure SyncedGrowth (part : Partition) (n : Nat) (v w : Vnode) (m : Nat) : Prop where
  synced : ∀ X, SyncedBut part X v.disk v.blockBitmap →
    SyncedBut part (fun j => X j ∨ (v.inode.sec 12 = 0 ∧ 12 < m ∧ LastInSector n v.blockBitmap j ∧
      w.inode.sec 12 = part.sb.dataStartLba + j)) w.disk w.blockBitmap
  inodeBits : SameSector v.disk w.disk part.sb.inodeBitmapLba

section GrowFile

variable {part : Partition} {n has will : Nat} {v : Vnode} {g : Growth}

/-- Only direct blocks are needed. -/
theorem growFile_direct (lay : Layout part n) (map : BlockMap part n v.blockBitmap)
    (wf : BlocksWf part n v.blockBitmap (blockRef v.disk v.inode)) (filled : Filled v.disk v.inode has) (pos : 0 < has)
    (more : has < will) (few : will ≤ 12) (h : growFile part v has will = .ok g) :
    SyncedGrowth part n v g.v will ∧ (g.ok = true → Extended part n v g.v will ∧
      ∀ k, has - 1 ≤ k → k < will → g.all k = blockRef g.v.disk g.v.inode k) := by
  simp only [growFile, if_pos few, bind_ok, defined_ok, assertThat_ok, exists_const] at h
  obtain ⟨-, -, h⟩ := h
  have none : v.inode.sec 12 = 0 := filled.noTable (by omega)
  obtain ⟨d, ref', -, all_, growing, others, news, -, synced⟩ := growBlocks_ok lay _ _ h map wf (by omega)
    (fun k ge lt => filled.blank ge (by omega)) (fun k lt => (blockRef_direct lt).symm)
  have table : g.v.inode.sec 12 = 0 := growing.table.trans none
  refine ⟨⟨fun X h => (synced X h).mono fun j x => .inl x.1, growing.step.inodeBits⟩, fun ok => ?_⟩
  obtain rfl := all_ ok
  have refs : ∀ k, k < 141 → blockRef g.v.disk g.v.inode k = ref' k := by
    intro k lt
    by_cases d : k < 12
    · rw [blockRef_direct d, growing.direct k d]
    · rw [(others k (.inr (by omega))).1]
      by_cases last : k = 140
      · rw [last, blockRef_table, blockRef_table, table, none]
      · rw [blockRef_none (by omega) (by omega) table, blockRef_none (by omega) (by omega) none]
  refine ⟨⟨growing.grow.congr refs, ⟨fun k lt => ?_, by rw [table]; omega, by rw [table]; exact Nat.zero_le _⟩,
    growing.step.mono (fun _ h => h.elim) (fun _ h => h), growing.inode⟩, fun k ge lt => ?_⟩
  · rw [refs k (by omega)]
    by_cases new : has ≤ k ∧ k < has + (will - has)
    · exact ⟨fun _ => by omega, fun _ => (news k new.1 new.2).2⟩
    · rw [(others k (by omega)).1, filled.refs k lt]
      omega
  · rw [refs k (by omega)]
    by_cases new : has ≤ k
    · exact (news k new (by omega)).1
    · have old := others k (.inl (by omega))
      rw [old.1, old.2, if_pos (by omega), blockRef_direct (by omega)]
      congr 1; omega

/-- The references once the table is written. -/
theorem blockRef_grown (lay : Layout part n) {w : Vnode} {b : Bitmap} {all ref ref' : Nat → Nat}
    (grow : Grow part n b w.blockBitmap ref ref') (direct : ∀ k, k < 12 → w.inode.sec k = ref' k)
    (table : w.inode.sec 12 = ref' 140) (some : w.inode.sec 12 ≠ 0) (collected : ∀ k, 12 ≤ k → k < 140 → all k = ref' k)
    (k : Nat) (lt : k < 141) :
    blockRef (splice w.disk (512 * w.inode.sec 12) (512 * 1) (tableImage all)) w.inode k = ref' k := by
  by_cases last : k = 140
  · rw [last, blockRef_table, table]
  · rw [blockRef_tableWritten some (by omega)]
    by_cases d : k < 12
    · rw [if_pos d, direct k d]
    · rw [if_neg d, collected k (by omega) (by omega)]
      by_cases zero : ref' k = 0
      · simp only [zero, Nat.zero_mod]
      · exact Nat.mod_eq_of_lt ((grow.wf.block k lt zero).lt_pow lay)

/-- The table of a grown file is written. -/
theorem extended_table (lay : Layout part n) {w : Vnode} {all ref' : Nat → Nat}
    (grow : Grow part n v.blockBitmap w.blockBitmap (blockRef v.disk v.inode) ref')
    (direct : ∀ k, k < 12 → w.inode.sec k = ref' k) (table : w.inode.sec 12 = ref' 140) (some : w.inode.sec 12 ≠ 0)
    (collected : ∀ k, 12 ≤ k → k < 140 → all k = ref' k) (filled : ∀ k, k < 140 → (ref' k ≠ 0 ↔ k < will)) (more : 12 < will)
    (step : DiskStep part (fun _ => False) (fun _ => False) v.disk w.disk)
    (inode : w.inode = { v.inode with iSectors := w.inode.iSectors }) (onDisk : w.inode.sec 12 ≤ maxLba) :
    Extended part n v { w with disk := splice w.disk (512 * w.inode.sec 12) (512 * 1) (tableImage all) } will ∧
      ∀ k, k < 141 → blockRef (splice w.disk (512 * w.inode.sec 12) (512 * 1) (tableImage all)) w.inode k = ref' k := by
  have refs := blockRef_grown lay grow direct table some collected
  have block := grow.wf.block 140 (by omega) (table ▸ some)
  refine ⟨⟨grow.congr refs, ⟨fun k lt => ?_, ⟨fun _ => more, fun _ => some⟩, onDisk⟩, ?_, inode⟩, refs⟩
  · rw [refs k (by omega)]
    exact filled k lt
  · refine (step.mono (fun _ h => h.elim) (fun _ h => h)).trans ((diskStep_data lay _ _ (table ▸ block.ge)).mono ?_ fun _ h => h)
    rintro _ rfl
    exact ⟨some, rfl⟩

/-- The table itself is needed. -/
theorem growFile_table (lay : Layout part n) (map : BlockMap part n v.blockBitmap)
    (wf : BlocksWf part n v.blockBitmap (blockRef v.disk v.inode)) (filled : Filled v.disk v.inode has) (pos : 0 < has)
    (few : has ≤ 12) (more : 12 < will) (most : will ≤ 140) (h : growFile part v has will = .ok g) :
    SyncedGrowth part n v g.v will ∧ (g.ok = true → Extended part n v g.v will ∧
      ∀ k, has - 1 ≤ k → k < will → g.all k = blockRef g.v.disk g.v.inode k) := by
  have ds := lay.dataStartLba
  have none : v.inode.sec 12 = 0 := filled.noTable (by omega)
  simp only [growFile, if_neg (show ¬ will ≤ 12 by omega), if_pos few] at h
  split at h
  · rename_i b alloc
    obtain ⟨-, rfl, -⟩ | ⟨i, -, -, -, -, some_, -⟩ := blockBitmapAlloc_cases lay map alloc
    · rw [pure_ok] at h
      subst h
      exact ⟨⟨fun X h => h.mono fun _ => .inl, fun _ _ => rfl⟩, by rintro ⟨⟩⟩
    · cases some_
  rename_i lba b alloc
  obtain ⟨none', -⟩ | ⟨i, posi, inside, clear, below, some_, rfl⟩ := blockBitmapAlloc_cases lay map alloc
  · cases none'
  cases some_
  simp only [bind_ok, assertThat_ok, exists_const] at h
  obtain ⟨-, g', grown, h⟩ := h
  have one := Grow.one lay map wf 140 (by omega) none posi inside clear
  obtain ⟨d, ref', collected⟩ := growBlocks_ok lay _ _ grown one.map one.wf (by omega)
    (fun k ge lt => (Function.update_of_ne (by omega) ..).trans (filled.blank ge (by omega)))
    (fun k lt => by
      rw [Function.update_of_ne (by omega), blockRef_direct lt]
      exact (Inode.sec_setSec _ (by omega)).trans (if_neg (by omega)))
  have last := collected.last (by omega) rfl clear below
  obtain ⟨le, all_, growing, others, news, -, synced⟩ := collected
  have table : g'.v.inode.sec 12 = part.sb.dataStartLba + i :=
    growing.table.trans ((Inode.sec_setSec _ (by omega)).trans (if_pos rfl))
  have table' : ref' 140 = part.sb.dataStartLba + i := by
    rw [(others 140 (.inr (by omega))).1, Function.update_self]
  -- the table's own bit is written only with the sector of another block
  have bits : SyncedGrowth part n v g'.v will := by
    refine ⟨fun X h => ?_, growing.step.inodeBits⟩
    have unwritten : SyncedBut part (fun j => X j ∨ j = i) v.disk (bitmapSet v.blockBitmap i true) := by
      intro j ltj out
      rw [set_bitmapSet, if_neg (fun e => out (.inr e))]
      exact h j ltj fun x => out (.inl x)
    refine (synced _ unwritten).mono ?_
    rintro j ⟨x | rfl, apart⟩
    · exact .inl x
    · exact .inr ⟨none, more, last apart, table⟩
  split at h
  · rename_i failed
    rw [pure_ok] at h
    subst h
    exact ⟨bits, fun ok => by rw [failed] at ok; cases ok⟩
  rename_i ok
  simp only [bind_ok, ideWrite_ok, pure_ok] at h
  obtain ⟨disk, ⟨transfer, rfl⟩, rfl⟩ := h
  obtain rfl := all_ (by simpa using ok)
  obtain ⟨ext, refs⟩ := extended_table (w := g'.v) lay (one.trans growing.grow) growing.direct (table.trans table'.symm)
    (by omega)
    (fun k ge lt => by
      by_cases new : k < will
      · exact (news k (by omega) (by omega)).1
      · obtain ⟨h1, h2⟩ := others k (.inr (by omega))
        rw [h1, h2, if_neg (by omega), Function.update_of_ne (by omega)]
        exact (filled.blank (by omega) lt).symm)
    (fun k lt => by
      by_cases new : has ≤ k ∧ k < will
      · exact ⟨fun _ => new.2, fun _ => (news k new.1 (by omega)).2⟩
      · rw [(others k (by omega)).1, Function.update_of_ne (by omega), filled.refs k lt]
        omega)
    more growing.step
    (by
      rw [growing.inode]
      rfl)
    (by rw [table]; exact transfer.1)
  rw [table] at ext refs
  refine ⟨⟨fun X h => (bits.synced X h).behind lay ?_, ext.step.inodeBits⟩, fun _ => ⟨ext, fun k ge lt => ?_⟩⟩
  · have := lay.inodeTableLba
    omega
  · refine Eq.trans ?_ (refs k (by omega)).symm
    by_cases new : has ≤ k
    · exact (news k new (by omega)).1
    · obtain ⟨h1, h2⟩ := others k (.inl (by omega))
      rw [h1, h2, if_pos (by omega), Function.update_of_ne (by omega), blockRef_direct (by omega)]
      congr 1; omega

/-- The table is there already. -/
theorem growFile_indirect (lay : Layout part n) (map : BlockMap part n v.blockBitmap)
    (wf : BlocksWf part n v.blockBitmap (blockRef v.disk v.inode)) (filled : Filled v.disk v.inode has)
    (many : 12 < has) (more : has < will) (most : will ≤ 140) (h : growFile part v has will = .ok g) :
    SyncedGrowth part n v g.v will ∧ (g.ok = true → Extended part n v g.v will ∧
      ∀ k, has - 1 ≤ k → k < will → g.all k = blockRef g.v.disk g.v.inode k) := by
  have some : v.inode.sec 12 ≠ 0 := filled.table.2 many
  simp only [growFile, if_neg (show ¬ will ≤ 12 by omega), if_neg (show ¬ has ≤ 12 by omega), bind_ok, assertThat_ok,
    ideRead_ok, exists_const] at h
  obtain ⟨-, buf, ⟨-, rfl⟩, g', grown, h⟩ := h
  obtain ⟨d, ref', le, all_, growing, others, news, -, synced⟩ := growBlocks_ok lay _ _ grown map wf (by omega)
    (fun k ge lt => filled.blank ge (by omega)) (fun k lt => (blockRef_direct lt).symm)
  have table' : ref' 140 = v.inode.sec 12 := (others 140 (.inr (by omega))).1
  have bits : SyncedGrowth part n v g'.v will :=
    ⟨fun X h => (synced X h).mono fun j x => .inl x.1, growing.step.inodeBits⟩
  split at h
  · rename_i failed
    rw [pure_ok] at h
    subst h
    exact ⟨bits, fun ok => by rw [failed] at ok; cases ok⟩
  rename_i ok
  simp only [bind_ok, ideWrite_ok, pure_ok] at h
  obtain ⟨disk, ⟨transfer, rfl⟩, rfl⟩ := h
  obtain rfl := all_ (by simpa using ok)
  have old : ∀ k, 12 ≤ k → k < 140 → ¬ (has ≤ k ∧ k < will) → g'.all k = ref' k := by
    intro k ge lt out
    obtain ⟨h1, h2⟩ := others k (by omega)
    rw [h1, h2, if_neg (by omega), blockRef_indirect ge lt some]
    rfl
  obtain ⟨ext, refs⟩ := extended_table (w := g'.v) lay growing.grow growing.direct
    (growing.table.trans table'.symm) (by rwa [growing.table])
    (fun k ge lt => by
      by_cases new : has ≤ k ∧ k < will
      · exact (news k new.1 (by omega)).1
      · exact old k ge lt new)
    (fun k lt => by
      by_cases new : has ≤ k ∧ k < will
      · exact ⟨fun _ => new.2, fun _ => (news k new.1 (by omega)).2⟩
      · rw [(others k (by omega)).1, filled.refs k lt]
        omega)
    (by omega) growing.step growing.inode (by rw [growing.table]; exact transfer.1)
  rw [growing.table] at ext refs
  refine ⟨⟨fun X h => (bits.synced X h).behind lay ?_, ext.step.inodeBits⟩, fun _ => ⟨ext, fun k ge lt => ?_⟩⟩
  · have := lay.inodeTableLba
    have := lay.dataStartLba
    have := (wf.block 140 (by omega) some).ge
    rw [blockRef_table] at this
    omega
  · refine Eq.trans ?_ (refs k (by omega)).symm
    by_cases new : has ≤ k ∧ k < will
    · exact (news k new.1 (by omega)).1
    · exact old k (by omega) (by omega) new

/-- **The blocks of a growing file.** -/
theorem growFile_ok (lay : Layout part n) (map : BlockMap part n v.blockBitmap)
    (wf : BlocksWf part n v.blockBitmap (blockRef v.disk v.inode)) (filled : Filled v.disk v.inode has) (pos : 0 < has)
    (more : has < will) (most : will ≤ 140) (h : growFile part v has will = .ok g) :
    SyncedGrowth part n v g.v will ∧ (g.ok = true → Extended part n v g.v will ∧
      ∀ k, has - 1 ≤ k → k < will → g.all k = blockRef g.v.disk g.v.inode k) := by
  by_cases direct : will ≤ 12
  · exact growFile_direct lay map wf filled pos more direct h
  by_cases few : has ≤ 12
  · exact growFile_table lay map wf filled pos few (by omega) most h
  · exact growFile_indirect lay map wf filled (by omega) more most h

/-- Nothing is allocated when no block is added. -/
theorem growFile_short (few : will < has) (h : growFile part v has will = .ok g) :
    g.ok = true ∧ g.v.inode = v.inode := by
  have none : will - has = 0 := by omega
  simp only [growFile, none, List.range'_zero, growBlocks] at h
  split at h
  · simp only [bind_ok, defined_ok, assertThat_ok, pure_ok, exists_const] at h
    obtain ⟨-, -, rfl⟩ := h
    exact ⟨rfl, rfl⟩
  · rw [if_neg (by omega)] at h
    simp only [bind_ok, assertThat_ok, pure_ok, exists_const] at h
    obtain ⟨-, buf, -, g', rfl, h⟩ := h
    simp only [bind_ok, pure_ok, Bool.true_eq_false, if_false] at h
    obtain ⟨disk, -, rfl⟩ := h
    exact ⟨rfl, rfl⟩

/-- No block is added. -/
theorem sameBlocks_ok (map : BlockMap part n v.blockBitmap) (wf : BlocksWf part n v.blockBitmap (blockRef v.disk v.inode))
    (filled : Filled v.disk v.inode has) (pos : 0 < has) (most : has ≤ 140) (h : sameBlocks v has = .ok g) :
    g.ok = true ∧ g.v = v ∧ Extended part n v v has ∧ g.all (has - 1) = blockRef v.disk v.inode (has - 1) := by
  have same : Extended part n v v has := ⟨.refl map wf, filled, .refl, rfl⟩
  simp only [sameBlocks] at h
  split at h
  · rw [pure_ok] at h
    subst h
    refine ⟨rfl, rfl, same, ?_⟩
    dsimp only
    rw [if_pos rfl, blockRef_direct (by omega)]
  · simp only [bind_ok, assertThat_ok, ideRead_ok, pure_ok, exists_const] at h
    obtain ⟨some, buf, ⟨-, rfl⟩, rfl⟩ := h
    refine ⟨rfl, rfl, same, ?_⟩
    dsimp only
    rw [if_neg (by omega), blockRef_indirect (by omega) (by omega) some]
    rfl

end GrowFile

/-- Block `k` holds some of the bytes `size ..< size + left`. -/
def Touches (size left k : Nat) : Prop := 0 < left ∧ size / 512 ≤ k ∧ 512 * k < size + left

/-- The bytes `size ..< size + left` of a file whose blocks are `all` were stored. -/
structure Appended (part : Partition) (all : Nat → Nat) (size left : Nat) (src disk disk' : Image) : Prop where
  step : DiskStep part (fun lba => ∃ k, Touches size left k ∧ lba = all k) (fun _ => False) disk disk'
  new : ∀ pos, size ≤ pos → pos < size + left → disk' (512 * all (pos / 512) + pos % 512) = src (pos - size)
  old : ∀ pos, pos < size → pos / 512 = size / 512 →
    disk' (512 * all (pos / 512) + pos % 512) = disk (512 * all (pos / 512) + pos % 512)
  onDisk : ∀ k, Touches size left k → all k ≤ maxLba
  bits : ∀ X b, SyncedBut part X disk b → SyncedBut part X disk' b

section Store

variable {part : Partition} {n : Nat} {all : Nat → Nat} {size left : Nat}

theorem Appended.none {src disk : Image} : Appended part all size 0 src disk disk :=
  ⟨.refl, fun pos h1 h2 => by omega, fun _ _ _ => rfl, fun k t => absurd t.1 (Nat.lt_irrefl 0),
    fun _ _ h => h⟩

/-- One turn: `chunk` bytes go into the sector of the end of the file. -/
theorem Appended.turn (lay : Layout part n) {src disk disk' ioBuf : Image} {chunk : Nat}
    (data : ∀ k, Touches size left k → part.sb.dataStartLba ≤ all k)
    (inj : ∀ k k', Touches size left k → Touches size left k' → all k = all k' → k = k')
    (some : 0 < chunk) (fits : size % 512 + chunk ≤ 512) (le : chunk ≤ left) (rest : chunk < left → (size + chunk) % 512 = 0)
    (kept : ∀ i, i < size % 512 → ioBuf i = disk (512 * all (size / 512) + i)) (onDisk : all (size / 512) ≤ maxLba)
    (h : Appended part all (size + chunk) (left - chunk) (shifted src chunk)
      (splice disk (512 * all (size / 512)) (512 * 1) (splice ioBuf (size % 512) chunk src)) disk') :
    Appended part all size left src disk disk' := by
  have here : Touches size left (size / 512) := ⟨by omega, Nat.le_refl _, by omega⟩
  have later : ∀ k, Touches (size + chunk) (left - chunk) k → Touches size left k ∧ k ≠ size / 512 := by
    rintro k ⟨some, ge, lt⟩
    have := rest (by omega)
    exact ⟨⟨by omega, by omega, by omega⟩, by omega⟩
  have mine := data _ here
  -- the sector written now is not written again
  have sector : ∀ i, i < 512 →
      disk' (512 * all (size / 512) + i) = splice ioBuf (size % 512) chunk src i := by
    intro i hi
    rw [h.step.data (all (size / 512)) mine ?_ i hi, splice_at (by omega)]
    rintro ⟨k, t, e⟩
    exact (later k t).2 (inj _ _ here (later k t).1 e).symm
  refine ⟨?_, fun pos ge lt => ?_, fun pos lt same => ?_, fun k t => ?_, fun X b synced => h.bits X b (synced.behind lay ?_)⟩
  · refine ((diskStep_data lay _ _ mine).mono ?_ (fun _ h => h)).trans (h.step.mono ?_ (fun _ h => h))
    · rintro _ rfl
      exact ⟨_, here, rfl⟩
    · rintro _ ⟨k, t, rfl⟩
      exact ⟨k, (later k t).1, rfl⟩
  · by_cases now : pos < size + chunk
    · have block : pos / 512 = size / 512 := by omega
      rw [block, sector _ (by omega), splice_in (by omega) (by omega)]
      congr 1; omega
    · rw [h.new pos (by omega) (by omega)]
      simp only [shifted]
      congr 1; omega
  · rw [same, sector _ (by omega), splice_out (by omega), kept _ (by omega)]
  · by_cases now : k = size / 512
    · rw [now]
      exact onDisk
    · obtain ⟨-, ge, lt⟩ := t
      have := rest (by omega)
      exact h.onDisk k ⟨by omega, by omega, by omega⟩
  · have := lay.dataStartLba
    have := lay.inodeTableLba
    omega

/-- What one turn of the loop does: it stores `chunk` bytes, up to the end of the sector
or of the data. Below the end of the file the buffer holds what the sector holds. -/
theorem writeLoop_turn {buf : Image} {count fuel written fdPos fdPos' : Nat} {first : Bool} {v v' : Vnode}
    (h : writeLoop all buf count (fuel + 1) first written v fdPos = .ok (v', fdPos')) (size_ : v.inode.iSize = size)
    (left_ : written + left = count) (more : 0 < left) :
    ∃ chunk ioBuf, 0 < chunk ∧ size % 512 + chunk ≤ 512 ∧ chunk ≤ left ∧ (chunk < left → (size + chunk) % 512 = 0) ∧
      size < 512 * 140 ∧ all (size / 512) ≤ maxLba ∧
      ((first = false → size % 512 = 0) → ∀ i, i < size % 512 → ioBuf i = v.disk (512 * all (size / 512) + i)) ∧
      writeLoop all buf count fuel false (written + chunk)
        ⟨splice v.disk (512 * all (size / 512)) (512 * 1) (splice ioBuf (size % 512) chunk (shifted buf written)),
          v.blockBitmap, { v.inode with iSize := size + chunk }⟩ (addU32 fdPos chunk) = .ok (v', fdPos') := by
  simp only [writeLoop, if_pos (show written < count by omega), bind_ok, defined_ok, exists_const, size_] at h
  obtain ⟨low, h⟩ := h
  obtain ⟨chunk, isChunk⟩ : ∃ chunk, chunk = if count - written < 512 - size % 512 then count - written
    else 512 - size % 512 := ⟨_, rfl⟩
  rw [← isChunk] at h
  have bounds : 0 < chunk ∧ size % 512 + chunk ≤ 512 ∧ chunk ≤ left ∧ (chunk < left → (size + chunk) % 512 = 0) := by
    rw [isChunk]
    split <;> refine ⟨?_, ?_, ?_, ?_⟩ <;> omega
  obtain ⟨some, fits, le, rest⟩ := bounds
  have size' : addU32 size chunk = size + chunk := addU32_of_lt (by omega)
  rw [size'] at h
  split at h
  · simp only [bind_ok, ideRead_ok, ideWrite_ok] at h
    obtain ⟨ioBuf, ⟨transfer, rfl⟩, disk, ⟨-, rfl⟩, h⟩ := h
    exact ⟨chunk, _, some, fits, le, rest, by omega, transfer.1, fun _ _ _ => rfl, h⟩
  · rename_i again
    simp only [bind_ok, pure_ok, ideWrite_ok] at h
    obtain ⟨ioBuf, rfl, disk, ⟨transfer, rfl⟩, h⟩ := h
    refine ⟨chunk, _, some, fits, le, rest, by omega, transfer.1, fun aligned i hi => ?_, h⟩
    have := aligned (by simpa using again)
    omega

theorem writeLoop_done {buf : Image} {count fuel fdPos fdPos' : Nat} {first : Bool} {v v' : Vnode}
    (h : writeLoop all buf count fuel first count v fdPos = .ok (v', fdPos')) : v' = v := by
  cases fuel <;> simp only [writeLoop, Nat.lt_irrefl, if_false, pure_ok] at h <;> cases h <;> rfl

theorem writeLoop_number {buf : Image} {count : Nat} :
    ∀ (fuel : Nat) {first : Bool} {written fdPos fdPos' : Nat} {v v' : Vnode},
    writeLoop all buf count fuel first written v fdPos = .ok (v', fdPos') → v'.inode.iNo = v.inode.iNo := by
  intro fuel
  induction fuel with
  | zero =>
    intro first written fdPos fdPos' v v' h
    rw [writeLoop, pure_ok] at h
    cases h
    rfl
  | succ fuel ih =>
    intro first written fdPos fdPos' v v' h
    by_cases more : written < count
    · simp only [writeLoop, if_pos more, bind_ok] at h
      obtain ⟨-, -, h⟩ := h
      split at h <;> simp only [bind_ok] at h <;> obtain ⟨ioBuf, -, disk, -, h⟩ := h <;>
        exact (ih h).trans rfl
    · rw [writeLoop, if_neg more, pure_ok] at h
      cases h
      rfl

/-- A file never gets more than 140 blocks of data. -/
theorem writeLoop_size {buf : Image} {count : Nat} :
    ∀ (fuel : Nat) {first : Bool} {written fdPos fdPos' size left : Nat} {v v' : Vnode},
    writeLoop all buf count fuel first written v fdPos = .ok (v', fdPos') →
    left ≤ fuel → v.inode.iSize = size → written + left = count → 0 < left → size + left ≤ 512 * 140 := by
  intro fuel
  induction fuel with
  | zero => intros; omega
  | succ fuel ih =>
    intro first written fdPos fdPos' size left v v' h le isSize isLeft more
    obtain ⟨chunk, ioBuf, some, fits, le', -, low, -, -, h⟩ := writeLoop_turn h isSize isLeft more
    by_cases last : chunk = left
    · omega
    · have : size + chunk + (left - chunk) ≤ 512 * 140 := ih h (by omega) rfl (by omega) (by omega)
      omega

/-- **The loop of `file_write` that stores the data.** -/
theorem writeLoop_ok (lay : Layout part n) {buf : Image} {count : Nat} :
    ∀ (fuel : Nat) {first : Bool} {written fdPos fdPos' size left : Nat} {v v' : Vnode},
    writeLoop all buf count fuel first written v fdPos = .ok (v', fdPos') →
    left ≤ fuel → v.inode.iSize = size → written + left = count →
    (first = false → 0 < left → size % 512 = 0) →
    (∀ k, Touches size left k → part.sb.dataStartLba ≤ all k) →
    (∀ k k', Touches size left k → Touches size left k' → all k = all k' → k = k') →
    Appended part all size left (shifted buf written) v.disk v'.disk ∧ v'.blockBitmap = v.blockBitmap ∧
      v'.inode = { v.inode with iSize := size + left } := by
  intro fuel
  induction fuel with
  | zero =>
    intro first written fdPos fdPos' size left v v' h le isSize isLeft _ _ _
    obtain rfl : left = 0 := by omega
    obtain rfl : written = count := by omega
    rw [writeLoop_done h, ← isSize]
    exact ⟨.none, rfl, rfl⟩
  | succ fuel ih =>
    intro first written fdPos fdPos' size left v v' h le isSize isLeft aligned data inj
    rcases Nat.eq_zero_or_pos left with rfl | more
    · obtain rfl : written = count := by omega
      rw [writeLoop_done h, ← isSize]
      exact ⟨.none, rfl, rfl⟩
    obtain ⟨chunk, ioBuf, some, fits, le', rest, -, onDisk, kept, h⟩ := writeLoop_turn h isSize isLeft more
    have sub : ∀ k, Touches (size + chunk) (left - chunk) k → Touches size left k := by
      rintro k ⟨some, ge, lt⟩
      exact ⟨by omega, by omega, by omega⟩
    obtain ⟨appended, bits, ino⟩ := ih h (show left - chunk ≤ fuel by omega) rfl (by omega)
      (fun _ more => rest (by omega)) (fun k t => data k (sub k t)) (fun k k' t t' => inj k k' (sub k t) (sub k' t'))
    have shift : shifted buf (written + chunk) = shifted (shifted buf written) chunk := by
      funext x
      simp only [shifted, Nat.add_assoc]
    rw [shift] at appended
    refine ⟨.turn lay data inj some fits le' rest (kept fun f => aligned f more) onDisk appended, bits, ?_⟩
    rw [ino, show size + chunk + (left - chunk) = size + left by omega]

end Store

/-- The byte at position `pos` of a file. -/
def byteAt (v : Vnode) (pos : Nat) : Byte := v.disk (512 * blockRef v.disk v.inode (pos / 512) + pos % 512)

/-- The bitmap once the file has its first block. -/
def afterFirst (part : Partition) (v : Vnode) : Bitmap :=
  if v.inode.sec 0 = 0 then (blockBitmapAlloc part.sb v.blockBitmap).2 else v.blockBitmap

/-- A write of `count` bytes makes the table, and leaves its bit, `i`, off the disk. -/
structure Unsynced (part : Partition) (n : Nat) (v : Vnode) (count i : Nat) : Prop where
  noTable : v.inode.sec 12 = 0
  needed : 12 < addU32 v.inode.iSize count / 512 + 1
  last : LastInSector n (afterFirst part v) i

/-- A successful write: `count` bytes of `buf` were appended. -/
structure Written (part : Partition) (n : Nat) (v v' : Vnode) (buf : Image) (count : Nat) : Prop where
  grow : Grow part n v.blockBitmap v'.blockBitmap (blockRef v.disk v.inode) (blockRef v'.disk v'.inode)
  wf : FileWf part n v'
  step : DiskStep part (Owns (blockRef v'.disk v'.inode)) (fun m => m = v.inode.iNo % 256) v.disk v'.disk
  holds : SlotHolds part v'.disk (v.inode.iNo % 256) v'.inode
  inode : v'.inode = { v.inode with iSize := v.inode.iSize + count, iSectors := v'.inode.iSectors }
  old : ∀ pos, pos < v.inode.iSize → byteAt v' pos = byteAt v pos
  new : ∀ pos, pos < count → byteAt v' (v.inode.iSize + pos) = buf pos

section WriteFile

variable {part : Partition} {n : Nat} {v w u : Vnode} {ok : Bool}

theorem fileBlocks_of_some {ino : Inode} (some : ino.sec 0 ≠ 0) : fileBlocks ino = ino.iSize / 512 + 1 := if_neg some

/-- **The first block of a file.** -/
theorem firstBlock_ok (lay : Layout part n) (map : BlockMap part n v.blockBitmap) (wf : FileWf part n v)
    (h : firstBlock part v = .ok (ok, w)) :
    (ok = false ∧ w = v) ∨ (ok = true ∧ w.blockBitmap = afterFirst part v ∧
      Grow part n v.blockBitmap w.blockBitmap (blockRef v.disk v.inode) (blockRef w.disk w.inode) ∧
      Filled w.disk w.inode (v.inode.iSize / 512 + 1) ∧
      DiskStep part (fun _ => False) (fun _ => False) v.disk w.disk ∧
      w.inode = { v.inode with iSectors := w.inode.iSectors } ∧ w.inode.sec 12 = v.inode.sec 12 ∧
      ∀ X, SyncedBut part X v.disk v.blockBitmap → SyncedBut part X w.disk w.blockBitmap) := by
  simp only [firstBlock] at h
  split at h
  · rename_i none
    have noBlocks : fileBlocks v.inode = 0 := if_pos none
    have filled := wf.filled
    rw [noBlocks] at filled
    split at h
    · rename_i b alloc
      obtain ⟨-, rfl, -⟩ | ⟨i, -, -, -, -, some_, -⟩ := blockBitmapAlloc_cases lay map alloc
      · rw [pure_ok] at h
        cases h
        exact .inl ⟨rfl, rfl⟩
      · cases some_
    rename_i lba b alloc
    obtain ⟨none', -⟩ | ⟨i, posi, inside, clear, -, some_, rfl⟩ := blockBitmapAlloc_cases lay map alloc
    · cases none'
    cases some_
    simp only [bind_ok, assertThat_ok, pure_ok, exists_const] at h
    obtain ⟨-, disk, written, h⟩ := h
    cases h
    have ds := lay.dataStartLba
    have noTable : v.inode.sec 12 = 0 := by
      by_contra some
      have := filled.table.1 some
      omega
    have secs := fun l => Inode.sec_setSec v.inode (k := 0) (j := l) (v := part.sb.dataStartLba + i) (by omega)
    have refs : ∀ k, k < 141 → blockRef disk (v.inode.setSec 0 (part.sb.dataStartLba + i)) k =
        Function.update (blockRef v.disk v.inode) 0 (part.sb.dataStartLba + i) k := fun k lt =>
      blockRef_setDirect (by omega) secs (fun some => absurd noTable some) lt
    have table : (v.inode.setSec 0 (part.sb.dataStartLba + i)).sec 12 = 0 := (secs 12).trans ((if_neg (by omega)).trans noTable)
    refine .inr ⟨rfl, ?_, (Grow.one lay map wf.blocks 0 (by omega) none posi inside clear).congr refs,
      ⟨fun k lt => ?_, ?_, ?_⟩, syncBlock_step lay inside written, rfl, table.trans noTable.symm,
      fun X h => h.set lay inside written⟩
    · rw [afterFirst, if_pos none, alloc]
    · rw [refs k (by omega), wf.empty none]
      by_cases e : k = 0
      · rw [e, Function.update_self]
        omega
      · rw [Function.update_of_ne e, filled.refs k lt]
        omega
    · rw [table, wf.empty none]
      omega
    · rw [table]
      exact Nat.zero_le _
  · rename_i some
    rw [pure_ok] at h
    cases h
    refine .inr ⟨rfl, (if_neg some).symm, .refl map wf.blocks, ?_, .refl, rfl, rfl, fun _ h => h⟩
    rw [← fileBlocks_of_some some]
    exact wf.filled

/-- The blocks of a file that is going to have `size + count` bytes. -/
theorem blocks_ok (lay : Layout part n) {has will : Nat} {g : Growth} (map : BlockMap part n v.blockBitmap)
    (wf : BlocksWf part n v.blockBitmap (blockRef v.disk v.inode)) (filled : Filled v.disk v.inode has) (pos : 0 < has)
    (more : has ≤ will) (most : will ≤ 140)
    (h : (if will = has then sameBlocks v has else growFile part v has will) = .ok g) :
    SyncedGrowth part n v g.v will ∧ (g.ok = true → Extended part n v g.v will ∧
      ∀ k, has - 1 ≤ k → k < will → g.all k = blockRef g.v.disk g.v.inode k) := by
  split at h
  · rename_i same
    subst same
    obtain ⟨-, is, ext, last⟩ := sameBlocks_ok map wf filled pos most h
    rw [is]
    refine ⟨⟨fun X h => h.mono fun _ => .inl, fun _ _ => rfl⟩, fun _ => ⟨ext, fun k ge lt => ?_⟩⟩
    obtain rfl : k = will - 1 := by omega
    exact last
  · exact growFile_ok lay map wf filled pos (by omega) most h

/-- The blocks that take bytes are there and collected. -/
theorem Filled.touched {all : Nat → Nat} {size count k : Nat} (filled : Filled u.disk u.inode ((size + count) / 512 + 1))
    (few : (size + count) / 512 + 1 ≤ 140)
    (collected : ∀ k, size / 512 ≤ k → k < (size + count) / 512 + 1 → all k = blockRef u.disk u.inode k)
    (t : Touches size count k) : k < 140 ∧ all k = blockRef u.disk u.inode k ∧ blockRef u.disk u.inode k ≠ 0 := by
  obtain ⟨-, ge, lt⟩ := t
  exact ⟨by omega, collected k ge (by omega), (filled.refs k (by omega)).2 (by omega)⟩

/-- What storing the data and the inode adds to a file that has all its blocks. -/
theorem stored_ok (lay : Layout part n) {all : Nat → Nat} {buf disk₁ disk₂ : Image} {size count : Nat} {ino : Inode}
    (wf : BlocksWf part n u.blockBitmap (blockRef u.disk u.inode)) (filled : Filled u.disk u.inode ((size + count) / 512 + 1))
    (few : (size + count) / 512 + 1 ≤ 140) (range : u.inode.InRange)
    (collected : ∀ k, size / 512 ≤ k → k < (size + count) / 512 + 1 → all k = blockRef u.disk u.inode k)
    (onDisk : ∀ k, 512 * k < size → blockRef u.disk u.inode k ≤ maxLba)
    (appended : Appended part all size count buf u.disk disk₁) (ino_ : ino = { u.inode with iSize := size + count })
    (stored : inodeSync part disk₁ ino = .ok disk₂) :
    FileWf part n ⟨disk₂, u.blockBitmap, ino⟩ ∧ (∀ k, k < 141 → blockRef disk₂ ino k = blockRef u.disk u.inode k) ∧
      DiskStep part (Owns (blockRef u.disk u.inode)) (fun m => m = ino.iNo % 256) u.disk disk₂ ∧
      (∀ pos, pos < size → disk₂ (512 * blockRef u.disk u.inode (pos / 512) + pos % 512) =
        u.disk (512 * blockRef u.disk u.inode (pos / 512) + pos % 512)) ∧
      ∀ pos, pos < count →
        disk₂ (512 * blockRef u.disk u.inode ((size + pos) / 512) + (size + pos) % 512) = buf pos := by
  have step₂ := inodeSync_step lay stored
  have after : ∀ lba, part.sb.dataStartLba ≤ lba → SameSector disk₁ disk₂ lba := fun lba ge => step₂.data lba ge id
  have secs : ∀ j, ino.sec j = u.inode.sec j := fun j => by rw [ino_]; rfl
  have touched := fun k (t : Touches size count k) => filled.touched few collected t
  -- the table is not among the sectors of the data
  have table : u.inode.sec 12 ≠ 0 → SameSector u.disk disk₂ (u.inode.sec 12) := by
    intro has i hi
    have ge : part.sb.dataStartLba ≤ u.inode.sec 12 := (wf.block 140 (by omega) has).ge
    rw [after _ ge i hi]
    refine appended.step.data _ ge ?_ i hi
    rintro ⟨k, t, e⟩
    obtain ⟨lt, is, some⟩ := touched k t
    exact absurd (wf.inj k 140 (by omega) (by omega) some (is.symm.trans e.symm)) (by omega)
  have refs : ∀ k, k < 141 → blockRef disk₂ ino k = blockRef u.disk u.inode k := fun k lt => blockRef_congr secs table lt
  have some : ino.sec 0 ≠ 0 := by
    rw [secs]
    exact (filled.refs 0 (by omega)).2 (by omega)
  have size' : ino.iSize = size + count := by rw [ino_]
  have blocks : fileBlocks ino = (size + count) / 512 + 1 := by rw [fileBlocks_of_some some, size']
  have data : ∀ k, k < (size + count) / 512 + 1 → blockRef u.disk u.inode k ≠ 0 ∧
      part.sb.dataStartLba ≤ blockRef u.disk u.inode k := fun k lt =>
    have has := (filled.refs k (by omega)).2 lt
    ⟨has, (wf.block k (by omega) has).ge⟩
  refine ⟨⟨wf.congr refs fun _ _ set => set, ?_, ?_, fun none => absurd none some, by rw [blocks]; exact few, ?_⟩, refs, ?_,
    fun pos lt => ?_, fun pos lt => ?_⟩
  · rw [blocks]
    refine ⟨fun k lt => ?_, ?_, ?_⟩
    · rw [refs k (by omega)]
      exact filled.refs k lt
    · rw [secs]
      exact filled.table
    · rw [secs]
      exact filled.onDisk
  · refine ⟨by rw [ino_]; exact range.iNo, by rw [size']; omega, fun k => ?_⟩
    rw [secs]
    exact range.iSectors k
  · intro k lt
    rw [size'] at lt
    rw [refs k (by omega)]
    by_cases t : Touches size count k
    · rw [← (touched k t).2.1]
      exact appended.onDisk k t
    · refine onDisk k ?_
      by_contra ge
      exact t ⟨by omega, by omega, lt⟩
  · refine (appended.step.mono ?_ (fun _ h => h.elim)).trans (step₂.mono (fun _ h => h.elim) (fun _ h => h))
    rintro _ ⟨k, t, rfl⟩
    obtain ⟨lt, is, some⟩ := touched k t
    rw [is]
    exact owns_ref (by omega) some
  · obtain ⟨has, ge⟩ := data (pos / 512) (by omega)
    rw [after _ ge _ (by omega)]
    by_cases same : pos / 512 = size / 512
    · have := appended.old pos lt same
      rwa [collected (pos / 512) (by omega) (by omega)] at this
    · refine appended.step.data _ ge ?_ _ (by omega)
      rintro ⟨k, t, e⟩
      obtain ⟨ltk, is, -⟩ := touched k t
      have := wf.inj (pos / 512) k (by omega) (by omega) has (e.trans is)
      have := t.2.1
      omega
  · obtain ⟨has, ge⟩ := data ((size + pos) / 512) (by omega)
    have := appended.new (size + pos) (by omega) (by omega)
    rw [collected _ (by omega) (by omega), Nat.add_sub_cancel_left] at this
    rw [after _ ge _ (by omega), this]

/-- The first block and the others make one extension. -/
theorem Extended.after {m : Nat} (ext : Extended part n w u m)
    (grow : Grow part n v.blockBitmap w.blockBitmap (blockRef v.disk v.inode) (blockRef w.disk w.inode))
    (step : DiskStep part (fun _ => False) (fun _ => False) v.disk w.disk)
    (inode : w.inode = { v.inode with iSectors := w.inode.iSectors }) : Extended part n v u m :=
  ⟨grow.trans ext.grow, ext.filled, (step.mono (fun _ h => h.elim) (fun _ h => h)).trans ext.step, by rw [ext.inode, inode]⟩

/-- The bytes of a file stay in their blocks. -/
theorem Extended.kept {m pos : Nat} (ext : Extended part n v u m) (wf : FileWf part n v) (lt : pos < v.inode.iSize) :
    pos / 512 < 140 ∧ blockRef v.disk v.inode (pos / 512) ≠ 0 ∧
      blockRef u.disk u.inode (pos / 512) = blockRef v.disk v.inode (pos / 512) := by
  have blocks := fileBlocks_of_some fun none => by
    have := wf.empty none
    omega
  have few := wf.few
  have has := (wf.filled.refs (pos / 512) (by omega)).2 (by rw [blocks]; omega)
  exact ⟨by omega, has, ext.grow.kept _ (by omega) has⟩

/-- **The data of `file_write`**, once all blocks are there. -/
theorem Extended.written (lay : Layout part n) {all : Nat → Nat} {buf disk : Image} {count fdPos fdPos' : Nat} {v₃ : Vnode}
    (wf : FileWf part n v) (ext : Extended part n v u ((v.inode.iSize + count) / 512 + 1))
    (most : (v.inode.iSize + count) / 512 + 1 ≤ 140)
    (collected : ∀ k, v.inode.iSize / 512 ≤ k → k < (v.inode.iSize + count) / 512 + 1 → all k = blockRef u.disk u.inode k)
    (loop : writeLoop all buf count count true 0 u fdPos = .ok (v₃, fdPos')) (stored : inodeSync part v₃.disk v₃.inode = .ok disk) :
    v₃.blockBitmap = u.blockBitmap ∧ v₃.inode.sec 12 = u.inode.sec 12 ∧
      (∀ X, SyncedBut part X u.disk u.blockBitmap → SyncedBut part X disk u.blockBitmap) ∧
      Written part n v { v₃ with disk := disk } buf count := by
  have touched := fun k (t : Touches v.inode.iSize count k) => ext.filled.touched most collected t
  have size : u.inode.iSize = v.inode.iSize := by rw [ext.inode]
  obtain ⟨appended, bits, ino⟩ := writeLoop_ok lay _ loop (Nat.le_refl _) size (Nat.zero_add _) (by rintro ⟨⟩)
    (fun k t => by
      obtain ⟨lt, is, some⟩ := touched k t
      rw [is]
      exact (ext.grow.wf.block k (by omega) some).ge)
    (fun k k' t t' e => by
      obtain ⟨lt, is, some⟩ := touched k t
      obtain ⟨lt', is', -⟩ := touched k' t'
      exact ext.grow.wf.inj k k' (by omega) (by omega) some (by rw [← is, ← is', e]))
  have number : u.inode.iNo < 2 ^ 32 := by
    rw [ext.inode]
    exact wf.range.iNo
  obtain ⟨wf', refs, step, old, new⟩ := stored_ok lay ext.grow.wf ext.filled most
    (ext.grow.wf.inRange lay number (by rw [size]; exact wf.range.iSize)) collected
    (fun k lt => by
      have same := (ext.kept wf lt).2.2
      rw [Nat.mul_div_cancel_left k (by omega)] at same
      rw [same]
      exact wf.onDisk k lt)
    appended ino stored
  have number' : v₃.inode.iNo = v.inode.iNo := by rw [ino, ext.inode]
  rw [number'] at step
  have owns : ∀ lba, Owns (blockRef u.disk u.inode) lba → Owns (blockRef disk v₃.inode) lba := fun lba => (Owns.congr refs).2
  refine ⟨bits, by rw [ino]; rfl, fun X h => ?_, ?_⟩
  · rw [inodeSync_ok stored]
    refine (appended.bits _ _ h).behind lay ?_
    have := lay.inodeTableLba
    simp only [slotAddr]
    omega
  rw [bits]
  refine ⟨ext.grow.congr refs, wf', ?_, ?_, ?_, fun pos lt => ?_, fun pos lt => ?_⟩
  · refine (ext.step.mono ?_ (fun _ h => h.elim)).trans (step.mono owns fun _ h => h)
    rintro _ ⟨some, rfl⟩
    exact owns _ ⟨some, 140, by omega, rfl⟩
  · rw [inodeSync_ok stored, number']
    exact fun i hi => splice_at hi
  · show v₃.inode = { v.inode with iSize := v.inode.iSize + count, iSectors := v₃.inode.iSectors }
    rw [ino, ext.inode]
  · obtain ⟨low, has, same⟩ := ext.kept wf lt
    have ge := (wf.blocks.block _ (by omega) has).ge
    rw [byteAt, byteAt]
    dsimp only
    rw [refs _ (by omega), old pos lt, same]
    refine ext.step.data _ ge ?_ _ (by omega)
    rintro ⟨-, e⟩
    have := ext.grow.wf.inj (pos / 512) 140 (by omega) (by omega) (same ▸ has) (same.trans e)
    omega
  · rw [byteAt]
    dsimp only
    rw [refs _ (by omega), new pos lt]
    simp only [shifted, Nat.zero_add]

/-- A count that wraps around never gets through the loop. -/
theorem writeLoop_notWrapped {buf : Image} {count fdPos has will : Nat} {g : Growth} (isHas : has = w.inode.iSize / 512 + 1)
    (isWill : will = addU32 w.inode.iSize count / 512 + 1) (size : w.inode.iSize < 2 ^ 32)
    (got : (if will = has then sameBlocks w has else growFile part w has will) = .ok g)
    (through : g.ok = true → ∃ r, writeLoop g.all buf count count true 0 g.v fdPos = .ok r) : has ≤ will := by
  by_contra short
  rw [if_neg (by omega)] at got
  obtain ⟨enough, ino⟩ := growFile_short (by omega) got
  obtain ⟨⟨v₃, fdPos₃⟩, loop⟩ := through enough
  have bound := writeLoop_size _ loop (Nat.le_refl _) (by rw [ino]) (Nat.zero_add _)
  rw [isHas, isWill] at short
  simp only [addU32] at short
  omega

/-- **`file_write`**: the bytes are appended, or nothing is promised but the bitmaps. -/
theorem writeFile_ok (lay : Layout part n) {v' : Vnode} {buf : Image} {count fdPos fdPos' : Nat} {r : Option Nat}
    (map : BlockMap part n v.blockBitmap) (wf : FileWf part n v)
    (h : writeFile part v fdPos buf count = .ok (r, v', fdPos')) :
    (∀ X, SyncedBut part X v.disk v.blockBitmap →
      SyncedBut part (fun j => X j ∨ (Unsynced part n v count j ∧ v'.inode.sec 12 = part.sb.dataStartLba + j))
        v'.disk v'.blockBitmap) ∧
    SameSector v.disk v'.disk part.sb.inodeBitmapLba ∧
    (r = none ∨ (r = some count ∧ Written part n v v' buf count)) := by
  simp only [writeFile, bind_ok, Prod.exists] at h
  obtain ⟨ok, w, first, h⟩ := h
  obtain ⟨rfl, rfl⟩ | ⟨rfl, bits, grow₁, filled₁, step₁, ino₁, table₁, synced₁⟩ := firstBlock_ok lay map wf first
  · simp only [if_true, pure_ok] at h
    cases h
    exact ⟨fun X h => h.mono fun _ => .inl, fun _ _ => rfl, .inl rfl⟩
  have size₁ : w.inode.iSize = v.inode.iSize := by rw [ino₁]
  simp only [Bool.true_eq_false, if_false, bind_ok, assertThat_ok, exists_const, size₁, ite_bind_ok] at h
  obtain ⟨most, g, got, h⟩ := h
  have more := writeLoop_notWrapped (by rw [size₁]) (by rw [size₁]) (by rw [size₁]; exact wf.range.iSize) got fun enough => by
    simp only [enough, Bool.true_eq_false, if_false, bind_ok] at h
    obtain ⟨r, loop, -⟩ := h
    exact ⟨r, loop⟩
  obtain ⟨growth, extended⟩ := blocks_ok lay grow₁.map grow₁.wf filled₁ (by omega) more most got
  have synced₂ : ∀ X, SyncedBut part X v.disk v.blockBitmap →
      SyncedBut part (fun j => X j ∨ (Unsynced part n v count j ∧ g.v.inode.sec 12 = part.sb.dataStartLba + j))
        g.v.disk g.v.blockBitmap := by
    intro X h
    refine (growth.synced X (synced₁ X h)).mono ?_
    rintro j (x | ⟨none, needed, last, is⟩)
    · exact .inl x
    · exact .inr ⟨⟨table₁ ▸ none, needed, bits ▸ last⟩, is⟩
  split at h
  · rw [pure_ok] at h
    cases h
    exact ⟨synced₂, fun i hi => (growth.inodeBits i hi).trans (step₁.inodeBits i hi), .inl rfl⟩
  rename_i enough
  obtain ⟨ext, collected⟩ := extended (by simpa using enough)
  replace ext := ext.after grow₁ step₁ ino₁
  simp only [bind_ok, pure_ok, Prod.exists] at h
  obtain ⟨v₃, fdPos₃, loop, disk, stored, h⟩ := h
  replace stored := (inodeSyncThrough_ok stored).2
  cases h
  have sum : addU32 v.inode.iSize count = v.inode.iSize + count := by
    have bound := writeLoop_size _ loop (Nat.le_refl _) (by rw [ext.inode]) (Nat.zero_add _)
    have range := wf.range.iSize
    exact addU32_of_lt (by omega)
  rw [sum] at most collected ext
  obtain ⟨bits₃, secs, behind, written⟩ := ext.written lay wf most (fun k ge lt => collected k (by omega) lt) loop stored
  refine ⟨fun X h => ?_, written.step.inodeBits, .inr ⟨rfl, written⟩⟩
  dsimp only
  rw [bits₃, secs]
  exact behind _ (synced₂ X h)

/-- What `file_write` wrote has its record in one sector. -/
theorem writeFile_oneSector {v' : Vnode} {buf : Image} {count fdPos fdPos' r : Nat}
    (h : writeFile part v fdPos buf count = .ok (some r, v', fdPos')) : OneSector (v'.inode.iNo % 256) := by
  simp only [writeFile, bind_ok, Prod.exists] at h
  obtain ⟨ok, w, -, h⟩ := h
  split at h
  · rw [pure_ok] at h
    cases h
  simp only [bind_ok, ite_bind_ok] at h
  obtain ⟨-, -, g, -, h⟩ := h
  split at h
  · rw [pure_ok] at h
    cases h
  simp only [bind_ok, pure_ok, Prod.exists] at h
  obtain ⟨v₃, fdPos₃, -, disk, synced, h⟩ := h
  cases h
  exact (inodeSyncThrough_ok synced).1

end WriteFile

end Sparrow
