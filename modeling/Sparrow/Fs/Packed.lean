import Sparrow.Fs.PathCalls

/-!
# Directories without gaps

`sync_dir_entry` takes the first free slot. In a tree that `sys_mkdir` alone has changed no slot
before an entry is free (`PackedDirs`), so a scan for an inode number reads entries in use until
it comes to the one it looks for.
-/

namespace Sparrow
set_option autoImplicit false

/-- No slot before an entry is free. -/
def Packed (v : Vnode) : Prop :=
  ∀ k j x, ItemAt v k j x → ∀ k' j', j' < 21 → 21 * k' + j' < 21 * k + j → ∃ y, ItemAt v k' j' y

/-- No directory has a gap. -/
def PackedDirs (part : Partition) (disk : Image) (b : Bitmap) (sh : Shape) : Prop :=
  ∀ m, sh.live m → sh.dir m → Packed (nodeAt part disk b m)

section Slots

variable {part : Partition} {n k₀ j₀ selfNo parentNo : Nat} {v v' : Vnode} {x : Item}

theorem Packed.congr (packed : Packed v) (items : ∀ k j y, ItemAt v' k j y ↔ ItemAt v k j y) : Packed v' := by
  intro k j y at_ k' j' slot before
  obtain ⟨z, at_'⟩ := packed k j y ((items ..).1 at_) k' j' slot before
  exact ⟨z, (items ..).2 at_'⟩

/-- A directory with nothing but `.` and `..`. -/
theorem packed_of_bare (wf : DirWf part n v selfNo parentNo) (bare : ∀ k j y, ItemAt v k j y → ¬ y.Ordinary) : Packed v := by
  intro k j y at_ k' j' slot before
  obtain ⟨rfl, lt⟩ := wf.slots.dots k j y at_ (bare k j y at_)
  obtain ⟨z, dot, -⟩ := wf.dot
  obtain ⟨rfl, rfl⟩ : k' = 0 ∧ j' = 0 := by omega
  exact ⟨z, dot⟩

/-- The slots before the first free one hold entries. -/
theorem FirstFree.before (first : FirstFree v k₀ j₀) (wf : DirWf part n v selfNo parentNo) (block : k₀ < 140) (slot : j₀ < 21) {k j : Nat}
    (lt : j < 21) (before : 21 * k + j < 21 * k₀ + j₀) : ∃ y, ItemAt v k j y := by
  have used : blockRef v.disk v.inode k ≠ 0 ∧ (entryAt v.disk v.inode k j).fType ≠ FileTypes.unknown.code := by
    by_cases same : k = k₀
    · rw [same]
      exact first.slots j (by omega)
    · obtain ⟨has, used⟩ := first.blocks k (by omega)
      exact ⟨has, used j lt⟩
  obtain dead | ⟨y, is⟩ := wf.used k j (by omega) lt used.1
  · exact absurd dead.1 used.2
  · exact ⟨y, by omega, lt, used.1, is⟩

theorem Packed.insert (packed : Packed v)
    (items : ∀ k j y, ItemAt v' k j y ↔ ItemAt v k j y ∨ (k = k₀ ∧ j = j₀ ∧ y = x))
    (before : ∀ k j, j < 21 → 21 * k + j < 21 * k₀ + j₀ → ∃ y, ItemAt v k j y) : Packed v' := by
  intro k j y at_ k' j' slot lt
  suffices ∃ z, ItemAt v k' j' z by
    obtain ⟨z, at_'⟩ := this
    exact ⟨z, (items ..).2 (.inl at_')⟩
  obtain old | ⟨rfl, rfl, -⟩ := (items ..).1 at_
  · exact packed k j y old k' j' slot lt
  · exact before k' j' slot lt

end Slots

section Make

variable {part : Partition} {n p : Nat} {disk disk' : Image} {b b' : Bitmap} {me : Option Nat} {s t : Fs} {sh : Shape}
  {H : Nat → Nat} {d : Dir}

theorem PackedDirs.untouched (packed : PackedDirs part disk b sh) (tree : Tree part n disk b sh)
    (same : ∀ m, sh.live m → Untouched part disk b disk' b' m) : PackedDirs part disk' b' sh := by
  intro m live dir
  obtain ⟨wf, -⟩ := (tree.node m live).dirWf dir
  obtain ⟨-, items⟩ := (same m live).dirWf wf
  exact (packed m live dir).congr items

/-- The end of `sys_mkdir`, once the entry is in the first free slot of the parent. -/
theorem dirCreated_packed (lay : Layout part n) (inv : FsInv part n s sh H) (dirAt : DirAt s sh d p) {f i k j : Nat} {v : Vnode}
    {x : Item} (low : f < 256) (clear : ¬ s.inodeBitmap.Set f) (number : x.iNo = f)
    (absent : ∀ k j y, ItemAt (nodeAt part s.disk s.blockBitmap p) k j y → y.name ≠ x.name) (inside : i < n)
    (set : s.blockBitmap.Set i) (unowned : ∀ m, sh.live m → ¬ owned part s.disk m (part.sb.dataStartLba + i))
    (onDisk : part.sb.dataStartLba + i ≤ maxLba)
    (contents : ∀ y, y < 512 → s.disk (512 * (part.sb.dataStartLba + i) + y) = dotsImage f p y)
    (ins : Inserted part n (s.vnode d.inode) v x k j)
    (before : ∀ k' j', j' < 21 → 21 * k' + j' < 21 * k + j → ∃ y, ItemAt (s.vnode d.inode) k' j' y)
    (packed : PackedDirs part s.disk s.blockBitmap sh)
    (h : dirCreated part { s.setVnode d.inode v with inodeBitmap := bitmapSet s.inodeBitmap f true } d.inode
      (newDirInode f (part.sb.dataStartLba + i)) f = .ok t) :
    PackedDirs part t.disk t.blockBitmap (sh.insert p f (true = true)) ∧ t.inodeBitmap = bitmapSet s.inodeBitmap f true := by
  obtain ⟨-, new⟩ := newDirInode_new inv dirAt low inside set unowned onDisk contents ins
  obtain ⟨disk, rfl, storedP, storedF, frame, -⟩ := dirCreated_stored lay inv dirAt low clear inside ins h
  have fresh : ¬ sh.live f := fun live => clear ((inv.bits f (Nat.lt_trans low (by decide))).2 live)
  have stored := inv.cache.stored d.inode dirAt.mem (by rw [dirAt.number]; exact dirAt.live)
  rw [dirAt.number] at stored
  obtain ⟨-, -, items, -⟩ := inv.dirWf dirAt
  refine ⟨fun m live dir => ?_, rfl⟩
  by_cases isNew : m = f
  · subst isNew
    obtain ⟨node, bare⟩ : Node part n disk v.blockBitmap (sh.insert p m (true = true)) m ∧ (true = true → ∀ y, ¬ entries part disk v.blockBitmap m y) :=
      Fresh.node lay (.dir new) storedF rfl fun lba ge => frame.data lba ge id
    exact packed_of_bare (node.dirWf dir).1 fun k j y at_ ord => bare rfl y ⟨ord, k, j, at_⟩
  have old := live.resolve_right isNew
  have oldDir := (Shape.insert_dir fresh old).1 dir
  by_cases isParent : m = p
  · subst isParent
    obtain ⟨-, -, items', -⟩ := inv.tree.enter_parent lay old oldDir stored number fresh (inv.ordinary dirAt absent) absent ins storedP
      frame
    refine (packed m old oldDir).insert items' fun k' j' slot lt => ?_
    obtain ⟨y, at_⟩ := before k' j' slot lt
    exact ⟨y, (items ..).1 at_⟩
  · obtain ⟨wf, -⟩ := (inv.tree.node m old).dirWf oldDir
    exact (packed m old oldDir).congr ((inv.tree.enter_other dirAt.live stored fresh ins frame old isParent).dirWf wf).2

/-- **`sys_mkdir`** leaves no gap. -/
theorem makeDir_packed (lay : Layout part n) (inv : FsInv part n s sh H) (dirAt : DirAt s sh d p)
    (free : ∃ m, m < 256 ∧ ¬ s.inodeBitmap.Set m) (name : Name) {r : Option Unit}
    (absent : ∀ k j x, ItemAt (nodeAt part s.disk s.blockBitmap p) k j x → x.name ≠ name)
    (packed : PackedDirs part s.disk s.blockBitmap sh) (h : makeDir part me s d name.bytes = .ok (r, t)) :
    (r = none ∧ PackedDirs part t.disk t.blockBitmap sh) ∨
      ∃ f, f < 256 ∧ t.inodeBitmap = bitmapSet s.inodeBitmap f true ∧ r = some () ∧
        PackedDirs part t.disk t.blockBitmap (sh.insert p f (true = true)) := by
  obtain ⟨f, low, clear, alloc⟩ := inodeBitmapAlloc_low inv.len free
  obtain ⟨rfl, -, rfl⟩ | ⟨i, disk₁, e, ok, v, pos, inside, freeBlock, -, written, onDisk, made, synced, ends⟩ :=
    makeDir_ok lay alloc inv.tree.map h
  · exact .inl ⟨rfl, packed⟩
  obtain ⟨inv₁, -, untouched, unowned⟩ := inv.takeBlock lay pos inside freeBlock written rfl
  have packed₁ := packed.untouched inv.tree untouched
  have dirAt₁ : DirAt { s with
      blockBitmap := bitmapSet s.blockBitmap i true
      disk := splice disk₁ (512 * (part.sb.dataStartLba + i)) (512 * 1) (dotsImage f (s.inodes d.inode).iNo) } sh d p :=
    ⟨dirAt.mem, dirAt.number, dirAt.live, dirAt.dir⟩
  obtain ⟨wf, -⟩ := inv₁.dirWf dirAt₁
  have isEntry : e = Item.entry ⟨name, f, true, Nat.lt_trans low (by decide)⟩ := by
    simp only [createDirEntry, bind_ok, assertThat_ok, pure_ok, exists_const] at made
    exact made.2.symm
  rw [isEntry] at synced
  obtain ⟨rfl, crowded⟩ | ⟨rfl, k, j, placed, first⟩ := syncDirEntry_placed lay inv₁.tree.map wf.slots.toBlocks synced
  · obtain ⟨-, rfl, rfl⟩ | ⟨no, -⟩ := ends
    · -- nothing was written but the block, which nobody has
      have refused := crowded.refused lay
      refine .inl ⟨rfl, packed₁.untouched inv₁.tree fun m live => ?_⟩
      refine refused.step.toDiskFrame.untouched (inv₁.tree.node m live) (Nat.lt_trans (inv₁.tree.low m live) (by decide)) id
        (fun _ _ => id) fun l _ set => ?_
      show v.blockBitmap.Set l
      rw [refused.blockBitmap]
      exact set
    · cases no
  · obtain ⟨no, -⟩ | ⟨-, rfl, created⟩ := ends
    · cases no
    obtain ⟨wf₀, -⟩ := (inv.tree.node p dirAt.live).dirWf dirAt.dir
    obtain ⟨-, same⟩ := (untouched p dirAt.live).dirWf wf₀
    obtain ⟨packed₂, bits⟩ := dirCreated_packed lay inv₁ dirAt₁ low clear rfl (fun k j y at_ => absent k j y ((same k j y).1 at_)) inside
      (by rw [set_bitmapSet, if_pos rfl]) unowned onDisk (fun y lt => by rw [← dirAt.number]; exact splice_at (by omega))
      (placed.inserted wf.used) (fun k' j' => first.before wf placed.block placed.slot) packed₁ created
    exact .inr ⟨f, low, bits, rfl, packed₂⟩

/-- **`sys_mkdir`** makes a directory or changes nothing, and leaves no gap either way. -/
theorem mkdirPath_packed {path : List Byte} (lay : Layout part n) (room : ∀ a, H a + 2 < 2 ^ 32) (inv : FsInv part n s sh H)
    (noZero : 0#8 ∉ path) (may : MayCreate part me s.malloc path) (packed : PackedDirs part s.disk s.blockBitmap sh)
    {ok : Option Unit} (h : mkdirPath part me s path = .ok (ok, t)) :
    Steady s t ∧ (FsInv part n t sh H ∧ PackedDirs part t.disk t.blockBitmap sh ∨
      ∃ p f, ¬ sh.live f ∧ FsInv part n t (sh.insert p f (true = true)) H ∧
        PackedDirs part t.disk t.blockBitmap (sh.insert p f (true = true))) := by
  obtain ⟨browsed, inv'⟩ | ⟨d, q, name, s1, s2, before, inv1, dirAt, free, absent, make, closed⟩ :=
    mkdirPath_steps lay room inv noZero may h
  · refine ⟨browsed.steady, .inl ⟨inv', ?_⟩⟩
    rw [browsed.disk, browsed.blockBitmap]
    exact packed
  have packed1 : PackedDirs part s1.disk s1.blockBitmap sh := by
    rw [before.disk, before.blockBitmap]
    exact packed
  have made := makeDir_packed lay inv1 dirAt free name absent packed1 make
  obtain ⟨steady, -, -, ⟨rfl, inv2⟩ | ⟨f, low, clear, rfl, inv2⟩⟩ := makeDir_inv lay inv1 dirAt free name absent make
  · obtain ⟨-, packed2⟩ | ⟨_, -, -, no, -⟩ := made
    · obtain ⟨inv3, browsed3⟩ := dirClose_inv inv2 (room _) closed
      refine ⟨before.steady.trans (steady.trans browsed3.steady), .inl ⟨inv3, ?_⟩⟩
      rw [browsed3.disk, browsed3.blockBitmap]
      exact packed2
    · cases no
  · obtain ⟨no, -⟩ | ⟨g, low', bits, -, packed2⟩ := made
    · cases no
    have fresh : ¬ sh.live f := fun live => clear ((inv1.bits f (Nat.lt_trans low (by decide))).2 live)
    -- both say which number the new directory has
    obtain rfl : f = g := by
      have set : s2.inodeBitmap.Set f := (inv2.bits f (Nat.lt_trans low (by decide))).2 (.inr rfl)
      rw [bits, set_bitmapSet] at set
      by_contra ne
      rw [if_neg ne] at set
      exact clear set
    obtain ⟨inv3, browsed3⟩ := dirClose_inv inv2 (room _) closed
    refine ⟨before.steady.trans (steady.trans browsed3.steady), .inr ⟨q, f, fresh, inv3, ?_⟩⟩
    rw [browsed3.disk, browsed3.blockBitmap]
    exact packed2

end Make

end Sparrow
