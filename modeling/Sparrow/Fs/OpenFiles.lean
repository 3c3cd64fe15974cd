import Sparrow.Fs.FileRead
import Sparrow.Fs.Release

/-!
# Open files

The slots of the file table are handles on inodes. `Mounted` counts them, and the handles
`D` of directories, as the handles of the cache. Opening a file takes a free slot, closing
gives it back (`fileOpen_inv`, `fileClose_inv`).
-/

namespace Sparrow
set_option autoImplicit false

/-- The slots of the file table that have the object at `a` open. -/
def slotHandles (fileTable : Nat → File) (a : Nat) : Nat :=
  ((Finset.range maxFileOpen).filter fun i => (fileTable i).fdInode = .inode a).card

/-- The mounted partition between two calls, with `D` handles of directories. -/
structure Mounted (part : Partition) (n : Nat) (s : Fs) (sh : Shape) (D : Nat → Nat) : Prop where
  inv : FsInv part n s sh (fun a => slotHandles s.fileTable a + D a)
  files : ∀ i a, i < maxFileOpen → (s.fileTable i).fdInode = .inode a → ¬ sh.dir (s.inodes a).iNo
  dirs : ∀ a, 0 < D a → sh.dir (s.inodes a).iNo
  flags : ∀ i, i < maxFileOpen → (s.fileTable i).fdFlag ≤ 7 ∧ (s.fileTable i).fdInode ≠ .pipe

/-- The table after slot `g` was given back. -/
def freeSlot (fileTable : Nat → File) (g : Nat) : Nat → File :=
  fun i => if i = g then { fileTable g with fdInode := .null } else fileTable i

section Slots

variable {ft ft' : Nat → File} {g a addr : Nat}

theorem slotHandles_le (ft : Nat → File) (a : Nat) : slotHandles ft a ≤ 32 := by
  have := Finset.card_filter_le (Finset.range maxFileOpen) fun i => (ft i).fdInode = .inode a
  rwa [Finset.card_range] at this

theorem slotHandles_pos {i : Nat} (lt : i < maxFileOpen) (h : (ft i).fdInode = .inode a) : 0 < slotHandles ft a :=
  Finset.card_pos.2 ⟨i, Finset.mem_filter.2 ⟨Finset.mem_range.2 lt, h⟩⟩

theorem exists_of_slotHandles (h : 0 < slotHandles ft a) : ∃ i, i < maxFileOpen ∧ (ft i).fdInode = .inode a := by
  obtain ⟨i, mem⟩ := Finset.card_pos.1 h
  rw [Finset.mem_filter, Finset.mem_range] at mem
  exact ⟨i, mem⟩

theorem slotHandles_congr (same : ∀ i, (ft' i).fdInode = (ft i).fdInode) : slotHandles ft' = slotHandles ft := by
  funext a
  simp only [slotHandles, same]

/-- A free slot is filled. -/
theorem slotHandles_fill (lt : g < maxFileOpen) (free : (ft g).fdInode = .null) (filled : (ft' g).fdInode = .inode addr)
    (rest : ∀ i, i ≠ g → (ft' i).fdInode = (ft i).fdInode) : slotHandles ft' = bump (slotHandles ft) addr := by
  funext a
  by_cases e : a = addr
  · subst e
    rw [bump_self, slotHandles, slotHandles, ← Finset.card_insert_of_notMem (a := g)]
    · congr 1
      ext i
      simp only [Finset.mem_filter, Finset.mem_insert, Finset.mem_range]
      by_cases h : i = g
      · subst h
        simp [filled, lt]
      · simp [rest i h, h]
    · simp [free]
  · rw [bump_of_ne e, slotHandles, slotHandles]
    congr 1
    ext i
    simp only [Finset.mem_filter, Finset.mem_range]
    by_cases h : i = g
    · subst h
      simp [filled, free, Ne.symm e]
    · rw [rest i h]

theorem freeSlot_self : freeSlot ft g g = { ft g with fdInode := .null } := if_pos rfl

theorem freeSlot_of_ne {i : Nat} (ne : i ≠ g) : freeSlot ft g i = ft i := if_neg ne

/-- An open slot is one handle more than the rest. -/
theorem slotHandles_open (lt : g < maxFileOpen) (file : (ft g).fdInode = .inode addr) :
    slotHandles ft = bump (slotHandles (freeSlot ft g)) addr :=
  slotHandles_fill lt (by rw [freeSlot_self]) file fun _ ne => by rw [freeSlot_of_ne ne]

theorem bump_add (H D : Nat → Nat) (a : Nat) : bump (fun x => H x + D x) a = fun x => bump H a x + D x := by
  funext x
  by_cases e : x = a
  · rw [e, bump_self, bump_self]
    omega
  · rw [bump_of_ne e, bump_of_ne e]

theorem add_bump (H D : Nat → Nat) (a : Nat) : bump (fun x => H x + D x) a = fun x => H x + bump D a x := by
  funext x
  by_cases e : x = a
  · rw [e, bump_self, bump_self]
    omega
  · rw [bump_of_ne e, bump_of_ne e]

end Slots

section Steps

variable {part : Partition} {n g addr : Nat} {s t : Fs} {sh sh' : Shape} {D : Nat → Nat}

/-- An open slot names a cached object. -/
theorem Mounted.slot_mem (m : Mounted part n s sh D) {i a : Nat} (lt : i < maxFileOpen) (h : (s.fileTable i).fdInode = .inode a) :
    a ∈ s.openInodes :=
  (m.inv.cache.held a).2 (.inl (Nat.add_pos_left (slotHandles_pos lt h) _))

theorem Mounted.dir_mem (m : Mounted part n s sh D) {a : Nat} (h : 0 < D a) : a ∈ s.openInodes :=
  (m.inv.cache.held a).2 (.inl (Nat.add_pos_right _ h))

/-- A call that leaves the file table alone. -/
theorem Mounted.step (m : Mounted part n s sh D) (inv : FsInv part n t sh' (fun a => slotHandles s.fileTable a + D a))
    (steady : Steady s t) (kind : ∀ x, sh.live x → (sh'.dir x ↔ sh.dir x)) : Mounted part n t sh' D := by
  have same : ∀ a ∈ s.openInodes, sh'.dir (t.inodes a).iNo ↔ sh.dir (s.inodes a).iNo := by
    intro a mem
    rw [steady.numbers a (m.inv.cache.fresh a mem)]
    exact kind _ (m.inv.alive a mem)
  refine ⟨?_, fun i a lt h => ?_, fun a pos => ?_, fun i lt => ?_⟩
  · rw [slotHandles_congr steady.slots]
    exact inv
  · rw [steady.slots] at h
    rw [same a (m.slot_mem lt h)]
    exact m.files i a lt h
  · rw [same a (m.dir_mem pos)]
    exact m.dirs a pos
  · obtain ⟨small, notPipe⟩ := m.flags i lt
    refine ⟨?_, by rw [steady.slots]; exact notPipe⟩
    rcases steady.flags i with e | e
    · rw [e]
      exact small
    · rw [e]
      omega

/-- A call that fills the free slot `g` with a file. -/
theorem Mounted.fill (m : Mounted part n s sh D) (lt : g < maxFileOpen) (free : (s.fileTable g).fdInode = .null)
    (inv : FsInv part n t sh' (bump (fun a => slotHandles s.fileTable a + D a) addr)) {flag : Nat} (small : flag ≤ 7)
    (table : t.fileTable = fun i => if i = g then ⟨0, flag, .inode addr⟩ else s.fileTable i)
    (numbers : ∀ a, a < s.nextAddr → (t.inodes a).iNo = (s.inodes a).iNo) (kind : ∀ x, sh.live x → (sh'.dir x ↔ sh.dir x))
    (file : ¬ sh'.dir (t.inodes addr).iNo) : Mounted part n t sh' D := by
  have same : ∀ a ∈ s.openInodes, sh'.dir (t.inodes a).iNo ↔ sh.dir (s.inodes a).iNo := by
    intro a mem
    rw [numbers a (m.inv.cache.fresh a mem)]
    exact kind _ (m.inv.alive a mem)
  have here : t.fileTable g = ⟨0, flag, .inode addr⟩ := by rw [table]; exact if_pos rfl
  have there : ∀ i, i ≠ g → t.fileTable i = s.fileTable i := fun i ne => by rw [table]; exact if_neg ne
  refine ⟨?_, fun i a lt h => ?_, fun a pos => ?_, fun i lt => ?_⟩
  · rw [slotHandles_fill lt free (by rw [here]) fun i ne => by rw [there i ne]]
    rw [bump_add] at inv
    exact inv
  · by_cases e : i = g
    · rw [e, here] at h
      cases h
      exact file
    · rw [there i e] at h
      rw [same a (m.slot_mem lt h)]
      exact m.files i a lt h
  · rw [same a (m.dir_mem pos)]
    exact m.dirs a pos
  · by_cases e : i = g
    · rw [e, here]
      exact ⟨small, nofun⟩
    · rw [there i e]
      exact m.flags i lt

end Steps

section Files

variable {part : Partition} {n m addr g flag : Nat} {me : Option Nat} {s t : Fs} {sh : Shape} {H D : Nat → Nat}
  {fdTable fdTable' : Nat → Int} {r : Option Nat}

/-- The cache does not look at the file table. -/
theorem FsInv.setFile (inv : FsInv part n s sh H) (g : Nat) (file : File) : FsInv part n (s.setFile g file) sh H :=
  inv.storage (B := fun _ => False) (fun _ _ => rfl) (Nat.le_refl _) rfl rfl .refl (fun _ _ _ _ => id) (fun _ h => h) inv.tree.map rfl

/-- `write_deny` of a cached inode is nobody else's business. -/
theorem FsInv.setDeny (inv : FsInv part n s sh H) (mem : addr ∈ s.openInodes) (deny : Bool) :
    FsInv part n (s.setInode addr { s.inodes addr with writeDeny := deny }) sh H := by
  refine ⟨⟨inv.tree, ?_, inv.len⟩, inv.bits, fun a h => ?_⟩
  · refine inv.cache.store addr { s.inodes addr with writeDeny := deny } rfl (Nat.le_refl _) (fun _ _ => rfl) rfl rfl rfl
      (fun live => ?_) fun a _ _ live => ⟨live, rfl⟩
    have stored := inv.cache.stored addr mem live
    exact ⟨stored.iNo, stored.iSize, stored.iSectors⟩
  · show sh.live (if a = addr then { s.inodes addr with writeDeny := deny } else s.inodes a : Inode).iNo
    split
    · exact inv.alive addr mem
    · exact inv.alive a h

/-- What `file_open` leaves when it succeeds, or fails for want of a descriptor. -/
structure Opened (part : Partition) (n : Nat) (s t : Fs) (sh : Shape) (H : Nat → Nat) (m flag g addr : Nat) : Prop where
  slot : getFreeSlotInGlobal s.fileTable = some g
  inv : FsInv part n t sh (bump H addr)
  number : (t.inodes addr).iNo = m
  next : s.nextAddr ≤ t.nextAddr
  numbers : ∀ a, a < s.nextAddr → (t.inodes a).iNo = (s.inodes a).iNo
  fileTable : t.fileTable = fun i => if i = g then ⟨0, flag, .inode addr⟩ else s.fileTable i
  bits : BitsKept part (fun _ => False) s t

/-- The file is open for writing already. -/
def Denied (s : Fs) (m flag : Nat) : Prop := ForWrite flag ∧ ∃ a ∈ s.openInodes, (s.inodes a).iNo = m ∧ (s.inodes a).writeDeny = true

/-- **`file_open`** of a live inode. When another writer has the file, the inode it opened
stays open. -/
theorem fileOpen_inv (inv : FsInv part n s sh H) (live : sh.live m)
    (h : fileOpen part me s fdTable m flag = .ok (r, t, fdTable')) :
    (r = none ∧ fdTable' = fdTable ∧ t = s) ∨ (r = none ∧ fdTable' = fdTable ∧ Denied s m flag ∧ getFreeSlotInGlobal s.fileTable ≠ none) ∨
      ∃ g addr, Opened part n s t sh H m flag g addr ∧ pcbFdInstall fdTable g = (r, fdTable') := by
  simp only [fileOpen] at h
  split at h
  · rw [pure_ok] at h
    cases h
    exact .inl ⟨rfl, rfl, rfl⟩
  rename_i g slot
  simp only [bind_ok, Prod.exists] at h
  obtain ⟨addr, s1, opened, h⟩ := h
  obtain ⟨inv1, browsed, mem, number, fresh⟩ := inodeOpen_inv inv live opened
  split at h
  · rename_i denied
    rw [pure_ok] at h
    cases h
    refine .inr (.inl ⟨rfl, rfl, ⟨denied.1, addr, ?_⟩, by rw [slot]; nofun⟩)
    have deny : (s1.inodes addr).writeDeny = true := denied.2
    have old : addr ∈ s.openInodes := by
      by_contra out
      rw [fresh out] at deny
      cases deny
    have same := browsed.inodes addr (inv.cache.fresh addr old)
    rw [same] at deny number
    exact ⟨old, number, deny⟩
  · simp only [pure_ok] at h
    cases h
    refine .inr (.inr ⟨g, addr, ?_, rfl⟩)
    have kept : BitsKept part (fun _ => False) s s1 := browsed.toCacheOnly.bitsKept
    have steady := browsed.steady
    split
    · refine ⟨slot, (inv1.setFile g _).setDeny mem true, ?_, steady.next, fun a lt => ?_, ?_, ⟨kept.blocks, kept.inodes⟩⟩
      · show (if addr = addr then _ else _ : Inode).iNo = m
        rw [if_pos rfl]
        exact number
      · rw [← steady.numbers a lt]
        show (if a = addr then { s1.inodes addr with writeDeny := true } else s1.inodes a : Inode).iNo = _
        split
        · rename_i e
          rw [e]
        · rfl
      · show (fun i => if i = g then _ else s1.fileTable i) = _
        rw [browsed.fileTable]
    · refine ⟨slot, inv1.setFile g _, number, steady.next, steady.numbers, ?_, ⟨kept.blocks, kept.inodes⟩⟩
      show (fun i => if i = g then _ else s1.fileTable i) = _
      rw [browsed.fileTable]

/-- **`file_close`**. -/
theorem fileClose_inv (mounted : Mounted part n s sh D) (room : ∀ a, D a + 40 < 2 ^ 32) (lt : g < maxFileOpen)
    (h : fileClose me s g = .ok t) : Mounted part n t sh D ∧ BitsKept part (fun _ => False) s t ∧
      (∃ addr, (s.fileTable g).fdInode = .inode addr) ∧ s.nextAddr ≤ t.nextAddr ∧
      t.fileTable = freeSlot s.fileTable g := by
  simp only [fileClose] at h
  split at h
  case h_2 => exact (throw_ok.1 h).elim
  rename_i addr file
  simp only [bind_ok, defined_ok, pure_ok, exists_const] at h
  obtain ⟨-, s1, closed, rfl⟩ := h
  have mem := mounted.slot_mem lt file
  have inv := mounted.inv.setDeny mem false
  rw [slotHandles_open lt file, ← bump_add] at inv
  obtain ⟨inv1, browsed⟩ := inodeClose_inv inv (by
    have := slotHandles_le (freeSlot s.fileTable g) addr
    have := room addr
    omega) closed
  have table : s1.fileTable = s.fileTable := browsed.fileTable
  have numbers : ∀ a, a < s.nextAddr → (s1.inodes a).iNo = (s.inodes a).iNo := by
    intro a lt
    rw [browsed.inodes a lt]
    show (if a = addr then { s.inodes addr with writeDeny := false } else s.inodes a : Inode).iNo = _
    split
    · rename_i e
      rw [e]
    · rfl
  have kept : BitsKept part (fun _ => False) _ s1 := browsed.toCacheOnly.bitsKept
  have is : (s1.setFile g { s1.fileTable g with fdInode := .null }).fileTable = freeSlot s.fileTable g := by
    simp only [Fs.setFile, table]
    rfl
  refine ⟨⟨?_, fun i a lti h => ?_, fun a pos => ?_, fun i lti => ?_⟩, ⟨kept.blocks, kept.inodes⟩, ⟨addr, file⟩, browsed.next, is⟩
  · rw [is]
    exact inv1.setFile _ _
  · rw [is] at h
    by_cases e : i = g
    · rw [e, freeSlot_self] at h
      cases h
    · rw [freeSlot_of_ne e] at h
      show ¬ sh.dir (s1.inodes a).iNo
      rw [numbers a (mounted.inv.cache.fresh a (mounted.slot_mem lti h))]
      exact mounted.files i a lti h
  · show sh.dir (s1.inodes a).iNo
    rw [numbers a (mounted.inv.cache.fresh a (mounted.dir_mem pos))]
    exact mounted.dirs a pos
  · rw [is]
    by_cases e : i = g
    · rw [e, freeSlot_self]
      exact ⟨(mounted.flags g lt).1, by rintro ⟨⟩⟩
    · rw [freeSlot_of_ne e]
      exact mounted.flags i lti

end Files

end Sparrow
