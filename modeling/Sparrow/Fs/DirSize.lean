import Sparrow.Fs.Tree

/-!
# The size of a directory

`dir_is_empty` compares `i_size` with the size of two entries and never looks into the
blocks. `directory_size` says why it may: whatever entries were added and removed since the
directory was made, `i_size` counts the slots in use, no block but the first is without an
entry, and `.` and `..` are where they were put.
-/

namespace Sparrow
set_option autoImplicit false

/-- The slots of a directory whose type is not `FT_UNKNOWN`. -/
def liveSlots (v : Vnode) : Finset (Nat × Nat) :=
  (Finset.range 140 ×ˢ Finset.range 21).filter fun p =>
    blockRef v.disk v.inode p.1 ≠ 0 ∧ (entryAt v.disk v.inode p.1 p.2).fType ≠ FileTypes.unknown.code

theorem mem_liveSlots {v : Vnode} {k j : Nat} : (k, j) ∈ liveSlots v ↔ (k < 140 ∧ j < 21) ∧
    blockRef v.disk v.inode k ≠ 0 ∧ (entryAt v.disk v.inode k j).fType ≠ FileTypes.unknown.code := by
  simp only [liveSlots, Finset.mem_filter, Finset.mem_product, Finset.mem_range]

attribute [irreducible] liveSlots

/-- A call on the directory that returns, with any entry a caller makes and any number, or
something that happens to other files: it leaves the directory its inode, its sectors and
its bits. -/
inductive DirCall (part : Partition) (n : Nat) : Vnode → Vnode → Prop
  | sync {v v' : Vnode} {x : Item} {ok : Bool} (ordinary : x.Ordinary) (h : syncDirEntry part v x.entry = .ok (ok, v')) :
      DirCall part n v v'
  | delete {v v' : Vnode} {inodeNo : Nat} {ok : Bool} (h : deleteDirEntry part v inodeNo = .ok (ok, v')) :
      DirCall part n v v'
  | elsewhere {v v' : Vnode} (inode : v'.inode = v.inode) (map : BlockMap part n v'.blockBitmap)
      (same : ∀ lba, Owns (blockRef v.disk v.inode) lba → SameSector v.disk v'.disk lba)
      (bits : ∀ i, Owns (blockRef v.disk v.inode) (part.sb.dataStartLba + i) → v.blockBitmap.Set i → v'.blockBitmap.Set i) :
      DirCall part n v v'

/-- What the calls keep. -/
structure DirSound (part : Partition) (n selfNo parentNo : Nat) (v : Vnode) : Prop where
  map : BlockMap part n v.blockBitmap
  slots : DirSlots part n v selfNo parentNo
  sized : Sized v

section Run

variable {part : Partition} {n selfNo parentNo : Nat} {v v' : Vnode}

theorem DirSound.init (lay : Layout part n) (new : NewDir part n v selfNo parentNo) : DirSound part n selfNo parentNo v :=
  ⟨new.map, (new.wf lay).1.slots, new.sized lay⟩

theorem DirSound.call (lay : Layout part n) (sound : DirSound part n selfNo parentNo v) (call : DirCall part n v v') :
    DirSound part n selfNo parentNo v' := by
  cases call with
  | sync ordinary h =>
    obtain ⟨-, refused⟩ | ⟨-, k, j, ins⟩ := syncDirEntry_ok lay sound.map sound.slots h
    · obtain ⟨slots, items, -⟩ := refused.slots sound.slots
      refine ⟨by rw [refused.blockBitmap]; exact sound.map, slots, sound.sized.congr ?_ items⟩
      rw [refused.inode]
    · exact ⟨ins.grow.map, ins.slots lay sound.slots ordinary, ins.sized sound.sized⟩
  | delete h =>
    obtain ⟨-, rfl, -⟩ | ⟨-, k, j, x, -, removed⟩ := deleteDirEntry_ok lay sound.slots h
    · exact sound
    · exact ⟨removed.map sound.map, removed.slots lay sound.slots, removed.sized sound.sized⟩
  | elsewhere inode map same bits =>
    obtain ⟨slots, items, -⟩ := sound.slots.frame (by rw [inode]) (by rw [inode]; exact sound.slots.range) same bits
    exact ⟨map, slots, sound.sized.congr (by rw [inode]) items⟩

theorem DirSound.run (lay : Layout part n) (sound : DirSound part n selfNo parentNo v)
    (run : Relation.ReflTransGen (DirCall part n) v v') : DirSound part n selfNo parentNo v' := by
  induction run with
  | refl => exact sound
  | tail _ call ih => exact ih.call lay call

/-- A slot whose type is not `FT_UNKNOWN` holds an entry. -/
theorem DirSlots.live (slots : DirSlots part n v selfNo parentNo) {k j : Nat} : (k, j) ∈ liveSlots v ↔ ∃ x, ItemAt v k j x := by
  rw [mem_liveSlots]
  constructor
  · rintro ⟨⟨block, slot⟩, has, type⟩
    obtain dead | ⟨x, entry⟩ := slots.used k j block slot has
    · exact absurd dead.1 type
    · exact ⟨x, block, slot, has, entry⟩
  · rintro ⟨x, at_⟩
    refine ⟨⟨at_.block, at_.slot⟩, at_.has, ?_⟩
    rw [at_.entry]
    exact x.fType_ne

theorem DirSound.size (sound : DirSound part n selfNo parentNo v) : v.inode.iSize = direntSize * (liveSlots v).card := by
  have same : liveSlots v = usedSlots v := by
    ext ⟨k, j⟩
    rw [sound.slots.live, mem_usedSlots]
  rw [same]
  exact sound.sized

/-- `.` and `..` are always there. -/
theorem DirSlots.dots_live (slots : DirSlots part n v selfNo parentNo) : {(0, 0), (0, 1)} ⊆ liveSlots v := by
  intro p mem
  obtain ⟨d, dot, -⟩ := slots.dot
  obtain ⟨dd, dotDot, -⟩ := slots.dotDot
  simp only [Finset.mem_insert, Finset.mem_singleton] at mem
  rcases mem with rfl | rfl
  · exact slots.live.2 ⟨d, dot⟩
  · exact slots.live.2 ⟨dd, dotDot⟩

/-- **`dir_is_empty`** holds when there is nothing but `.` and `..`. -/
theorem DirSound.isEmpty (lay : Layout part n) (sound : DirSound part n selfNo parentNo v) :
    dirIsEmpty part v.inode = true ↔ liveSlots v = {(0, 0), (0, 1)} := by
  have two : ({(0, 0), (0, 1)} : Finset (Nat × Nat)).card = 2 := rfl
  have size := sound.size
  simp only [dirIsEmpty, lay.dirEntrySize, decide_eq_true_eq]
  constructor
  · intro empty
    refine (Finset.eq_of_subset_of_card_le sound.slots.dots_live ?_).symm
    rw [two]
    simp only [direntSize] at *
    omega
  · intro only
    rw [size, only, two]

/-- Then the directory has its first block only. -/
theorem DirSound.sectors (sound : DirSound part n selfNo parentNo v) (only : liveSlots v = {(0, 0), (0, 1)}) {k : Nat}
    (pos : 0 < k) (le : k ≤ 12) : v.inode.sec k = 0 := by
  have unused : ∀ k, 0 < k → k < 140 → blockRef v.disk v.inode k = 0 := by
    intro k pos lt
    by_contra has
    obtain ⟨j, x, at_⟩ := sound.slots.busy k pos lt has
    have mem := sound.slots.live.2 ⟨x, at_⟩
    rw [only] at mem
    simp only [Finset.mem_insert, Finset.mem_singleton, Prod.mk.injEq] at mem
    omega
  by_cases direct : k < 12
  · rw [← blockRef_direct direct]
    exact unused k pos (by omega)
  · -- the table of a directory has a first block
    obtain rfl : k = 12 := by omega
    by_contra has
    exact sound.slots.table has (unused 12 (by omega) (by omega))

end Run

/-- **The size of a directory.** After any run of calls on a new directory, `i_size` counts
the slots in use; the blocks past the first each have one; `.` and `..` are in the first two
slots; `dir_is_empty` tells whether they are the only ones; and then the sectors that
`dir_remove` asserts to be 0 are 0. -/
theorem directory_size {part : Partition} {n selfNo parentNo : Nat} {v₀ v : Vnode} (lay : Layout part n)
    (new : NewDir part n v₀ selfNo parentNo) (run : Relation.ReflTransGen (DirCall part n) v₀ v) :
    v.inode.iSize = direntSize * (liveSlots v).card ∧
    (∀ k, 0 < k → k < 140 → blockRef v.disk v.inode k ≠ 0 → ∃ j, (k, j) ∈ liveSlots v) ∧
    entryAt v.disk v.inode 0 0 = Item.entry ⟨.dot, selfNo, true, new.selfNo⟩ ∧
    entryAt v.disk v.inode 0 1 = Item.entry ⟨.dotDot, parentNo, true, new.parentNo⟩ ∧
    (dirIsEmpty part v.inode = true ↔ liveSlots v = {(0, 0), (0, 1)}) ∧
    (dirIsEmpty part v.inode = true → ∀ k ∈ List.range 12, v.inode.sec (k + 1) = 0) := by
  have sound := (DirSound.init lay new).run lay run
  refine ⟨sound.size, fun k pos lt has => ?_, ?_, ?_, sound.isEmpty lay, fun empty k mem => ?_⟩
  · obtain ⟨j, x, at_⟩ := sound.slots.busy k pos lt has
    exact ⟨j, sound.slots.live.2 ⟨x, at_⟩⟩
  · obtain ⟨x, at_, name, number, isDir⟩ := sound.slots.dot
    rw [at_.entry]
    cases x
    simp only at name number isDir
    subst name number isDir
    rfl
  · obtain ⟨x, at_, name, number, isDir⟩ := sound.slots.dotDot
    rw [at_.entry]
    cases x
    simp only at name number isDir
    subst name number isDir
    rfl
  · have lt := List.mem_range.1 mem
    exact sound.sectors ((sound.isEmpty lay).1 empty) (by omega) (by omega)

/-- The root directory of the small partition after `f` came and went. -/
theorem directory_size_small :
    ∃ v₁ v₂, syncDirEntry smallPartition smallRoot itemF.entry = .ok (true, v₁) ∧
      deleteDirEntry smallPartition v₁ 1 = .ok (true, v₂) ∧ dirIsEmpty smallPartition v₂.inode = true ∧
      ∀ k ∈ List.range 12, v₂.inode.sec (k + 1) = 0 := by
  have ran : returns (do
      let entered ← syncDirEntry smallPartition smallRoot itemF.entry
      let deleted ← deleteDirEntry smallPartition entered.2 1
      return (entered.1 && deleted.1 && dirIsEmpty smallPartition deleted.2.inode)) id = true := by decide
  obtain ⟨_, ran, is⟩ := returns_true.1 ran
  simp only [bind_ok, Prod.exists, pure_ok] at ran
  obtain ⟨ok, v₁, entered, ok', v₂, deleted, rfl⟩ := ran
  simp only [id_eq, Bool.and_eq_true] at is
  obtain ⟨⟨rfl, rfl⟩, empty⟩ := is
  have all := directory_size smallPartition_layout smallRoot_new
    ((Relation.ReflTransGen.single (.sync (x := itemF) (by decide) entered)).tail (.delete deleted))
  exact ⟨v₁, v₂, entered, deleted, empty, all.2.2.2.2.2 empty⟩

end Sparrow
