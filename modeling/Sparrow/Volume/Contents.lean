import Sparrow.Fs.PathCalls

/-!
# What files hold

The bytes of a file are those of its blocks, up to its size. A call that does not touch the inode and the blocks of a
file leaves its bytes alone (`Untouched.fileBytes`), so every file that a call does not remove holds what it held and
what the call adds to it (`FilesLast`).
-/

namespace Sparrow
set_option autoImplicit false

/-- The bytes of file `m`. -/
def fileBytes (part : Partition) (s : Fs) (m : Nat) : List Byte :=
  (List.range (slot part s.disk m).iSize).map (byteAt (nodeAt part s.disk s.blockBitmap m))

/-- The files that are still there are files, and hold what they held with `added` behind it. -/
def FilesLast (part : Partition) (s t : Fs) (sh sh' : Shape) (added : Nat → List Byte) : Prop :=
  ∀ m, sh.live m → ¬ sh.dir m → sh'.live m → ¬ sh'.dir m ∧ fileBytes part t m = fileBytes part s m ++ added m

def noBytes : Nat → List Byte := fun _ => []

/-- What a write through slot `g` adds to file `f`. -/
def slotBytes (s : Fs) (g : Nat) (buf : Image) (count f : Nat) : List Byte :=
  match (s.fileTable g).fdInode with
  | .inode addr => if (s.inodes addr).iNo = f then (List.range count).map buf else []
  | _ => []

section Bytes

variable {part : Partition} {n m : Nat} {s t : Fs} {sh sh' : Shape} {H : Nat → Nat} {v v' : Vnode}

/-- A file has a block for each of its bytes. -/
theorem FileWf.block (wf : FileWf part n v) {pos : Nat} (lt : pos < v.inode.iSize) :
    pos / 512 < 140 ∧ blockRef v.disk v.inode (pos / 512) ≠ 0 := by
  have some : v.inode.sec 0 ≠ 0 := fun none => by
    have := wf.empty none
    omega
  have few := wf.few
  rw [fileBlocks_of_some some] at few
  have inside : pos / 512 < v.inode.iSize / 512 + 1 := Nat.lt_succ_of_le (Nat.div_le_div_right (Nat.le_of_lt lt))
  refine ⟨by omega, (wf.filled.refs _ (by omega)).2 ?_⟩
  rw [fileBlocks_of_some some]
  exact inside

/-- A file nobody touches has the same bytes. -/
theorem Untouched.fileBytes (u : Untouched part s.disk s.blockBitmap t.disk t.blockBitmap m)
    (wf : FileWf part n (nodeAt part s.disk s.blockBitmap m)) : fileBytes part t m = fileBytes part s m := by
  have refs : ∀ k, k < 141 → blockRef t.disk (Sparrow.slot part s.disk m) k = blockRef s.disk (Sparrow.slot part s.disk m) k :=
    fun k lt => blockRef_congr (fun _ => rfl) (fun has => u.data _ ⟨has, 140, by omega, rfl⟩) lt
  rw [Sparrow.fileBytes, Sparrow.fileBytes, u.slot]
  refine List.map_congr_left fun pos mem => ?_
  obtain ⟨few, has⟩ := wf.block (List.mem_range.1 mem)
  show t.disk (512 * blockRef t.disk (Sparrow.slot part t.disk m) (pos / 512) + pos % 512) = _
  rw [u.slot, refs _ (by omega)]
  exact u.data _ ⟨has, _, by omega, rfl⟩ _ (Nat.mod_lt _ (by decide))

theorem FilesLast.refl : FilesLast part s s sh sh noBytes := fun _ _ file _ => ⟨file, (List.append_nil _).symm⟩

/-- A call that touches no file that stays. -/
theorem FsInv.lasts (inv : FsInv part n s sh H) (dir : ∀ m, sh.live m → (sh'.dir m ↔ sh.dir m))
    (keeps : ∀ m, sh.live m → ¬ sh.dir m → sh'.live m → Untouched part s.disk s.blockBitmap t.disk t.blockBitmap m) :
    FilesLast part s t sh sh' noBytes := by
  intro m live file live'
  refine ⟨fun d => file ((dir m live).1 d), ?_⟩
  rw [(keeps m live file live').fileBytes ((inv.tree.node m live).fileWf file), noBytes, List.append_nil]

/-- A call that touches no file. -/
theorem KeepsFiles.lasts (keeps : KeepsFiles part s t sh) (inv : FsInv part n s sh H)
    (dir : ∀ m, sh.live m → (sh'.dir m ↔ sh.dir m)) : FilesLast part s t sh sh' noBytes :=
  inv.lasts dir fun m live file _ => keeps m live file

/-- Opening and closing a slot writes nothing. -/
theorem fileOpen_disk {me : Option Nat} {fdTable fdTable' : Nat → Int} {flag : Nat} {r : Option Nat}
    (h : fileOpen part me s fdTable m flag = .ok (r, t, fdTable')) : t.disk = s.disk ∧ t.blockBitmap = s.blockBitmap := by
  simp only [fileOpen] at h
  split at h
  · rw [pure_ok] at h
    cases h
    exact ⟨rfl, rfl⟩
  simp only [bind_ok, Prod.exists] at h
  obtain ⟨addr, s1, opened, h⟩ := h
  have looked := inodeOpen_cacheOnly opened
  split at h
  · rw [pure_ok] at h
    cases h
    exact ⟨looked.disk, looked.blockBitmap⟩
  · simp only [pure_ok] at h
    cases h
    split <;> exact ⟨looked.disk, looked.blockBitmap⟩

theorem fileClose_disk {me : Option Nat} {g : Nat} (h : fileClose me s g = .ok t) :
    t.disk = s.disk ∧ t.blockBitmap = s.blockBitmap := by
  simp only [fileClose] at h
  split at h
  case h_2 => exact (throw_ok.1 h).elim
  simp only [bind_ok, defined_ok, pure_ok, exists_const] at h
  obtain ⟨-, s1, closed, rfl⟩ := h
  have looked := inodeClose_cacheOnly closed
  exact ⟨looked.disk, looked.blockBitmap⟩

/-- The same bytes are at the same places of the same blocks. -/
theorem byteAt_congr {pos : Nat} (disk : v'.disk = v.disk)
    (refs : blockRef v'.disk v'.inode (pos / 512) = blockRef v.disk v.inode (pos / 512)) : byteAt v' pos = byteAt v pos := by
  rw [byteAt, byteAt, refs, disk]

end Bytes

end Sparrow
