import Sparrow.Fs.Path
import Sparrow.Fs.InodeTable

/-!
# What path lookups change

Looking up a path opens and closes directories. Each of these calls changes the cache of
open inodes and nothing else (`CacheOnly`): the disk, the bitmaps and the file table stay
as they are. `inodeOpen_ok` and `inodeClose_ok` say what happens to the cache.
-/

namespace Sparrow
set_option autoImplicit false

/-- The two states agree outside the cache of open inodes and the heap. -/
structure CacheOnly (s t : Fs) : Prop where
  disk : t.disk = s.disk
  blockBitmap : t.blockBitmap = s.blockBitmap
  inodeBitmap : t.inodeBitmap = s.inodeBitmap
  rootDir : t.rootDir = s.rootDir
  fileTable : t.fileTable = s.fileTable

theorem CacheOnly.refl (s : Fs) : CacheOnly s s := ⟨rfl, rfl, rfl, rfl, rfl⟩

theorem CacheOnly.trans {s t u : Fs} (h : CacheOnly s t) (h' : CacheOnly t u) : CacheOnly s u :=
  ⟨h'.disk.trans h.disk, h'.blockBitmap.trans h.blockBitmap, h'.inodeBitmap.trans h.inodeBitmap,
    h'.rootDir.trans h.rootDir, h'.fileTable.trans h.fileTable⟩

section Inodes

variable {part : Partition} {me : Option Nat} {s t : Fs} {n addr : Nat}

/-- The inode read from the table joins the cache. -/
def Fs.load (part : Partition) (s : Fs) (n : Nat) : Fs :=
  { s.malloc.malloc.setInode s.nextAddr { slot part s.disk n with iOpenCnts := 1 } with
    pool := fun a => if a = s.nextAddr then none else s.pool a
    nextAddr := s.nextAddr + 1
    openInodes := s.nextAddr :: s.openInodes }

/-- One handle more on a cached inode. -/
def Fs.retain (s : Fs) (addr : Nat) : Fs :=
  s.setInode addr { s.inodes addr with iOpenCnts := (s.inodes addr).iOpenCnts + 1 }

/-- One handle less on a cached inode; the last one takes it out of the cache. -/
def Fs.release (s : Fs) (addr : Nat) : Fs :=
  let cnt := subU32 (s.inodes addr).iOpenCnts 1
  { s.setInode addr { s.inodes addr with iOpenCnts := cnt } with
    openInodes := if cnt = 0 then s.openInodes.erase addr else s.openInodes }

theorem mustMalloc_ok : mustMalloc s = .ok t ↔ s.mallocOk = true ∧ t = s.malloc := by
  simp only [mustMalloc, bind_ok, defined_ok, pure_ok, exists_const]
  constructor
  · rintro ⟨ok, rfl⟩; exact ⟨ok, rfl⟩
  · rintro ⟨ok, rfl⟩; exact ⟨ok, rfl⟩

theorem findOpen_ok : ∀ (l : List Nat) {r : Option Nat}, findOpen me s n l = .ok r →
    (r = none ∧ ∀ a ∈ l, (s.inodes a).iNo ≠ n) ∨
      ∃ a, r = some a ∧ a ∈ l ∧ (s.inodes a).iNo = n ∧ Reachable me s a := by
  intro l
  induction l with
  | nil =>
    intro r h
    simp only [findOpen, pure_ok] at h
    exact .inl ⟨h.symm, by simp⟩
  | cons a rest ih =>
    intro r h
    simp only [findOpen, bind_ok, defined_ok, exists_const] at h
    obtain ⟨reach, h⟩ := h
    split at h
    · rename_i same
      rw [pure_ok] at h
      exact .inr ⟨a, h.symm, List.mem_cons_self, same, reach⟩
    · rename_i other
      obtain ⟨none, all⟩ | ⟨b, found, mem, same, reach⟩ := ih h
      · exact .inl ⟨none, by simpa [other] using all⟩
      · exact .inr ⟨b, found, List.mem_cons_of_mem _ mem, same, reach⟩

/-- **`inode_open`** finds the inode in the cache or loads it from the table. -/
theorem inodeOpen_ok (h : inodeOpen part me s n = .ok (addr, t)) :
    (addr ∈ s.openInodes ∧ (s.inodes addr).iNo = n ∧ Reachable me s addr ∧ t = s.retain addr) ∨
      ((∀ a ∈ s.openInodes, (s.inodes a).iNo ≠ n) ∧ n < 4096 ∧ addr = s.nextAddr ∧ t = s.load part n) := by
  simp only [inodeOpen, bind_ok] at h
  obtain ⟨r, found, h⟩ := h
  obtain ⟨rfl, absent⟩ | ⟨a, rfl, mem, same, reach⟩ := findOpen_ok _ found
  · simp only [bind_ok, mustMalloc_ok, ideRead_ok, pure_ok] at h
    obtain ⟨pos, located, s1, ⟨-, rfl⟩, s2, ⟨-, rfl⟩, buf, ⟨-, rfl⟩, h⟩ := h
    have loc := inodeLocate_ok located
    have disk : s.malloc.malloc.disk = s.disk := rfl
    rw [disk, loc.decode] at h
    cases h
    exact .inr ⟨absent, loc.number, rfl, rfl⟩
  · simp only [pure_ok] at h
    cases h
    exact .inl ⟨mem, same, reach, rfl⟩

/-- **`inode_close`** gives a handle back. -/
theorem inodeClose_ok (h : inodeClose me s addr = .ok t) : Reachable me s addr ∧ t = s.release addr := by
  simp only [inodeClose, bind_ok, defined_ok, exists_const] at h
  obtain ⟨reach, h⟩ := h
  refine ⟨reach, ?_⟩
  simp only [Fs.release]
  split at h
  · rename_i zero
    simp only [bind_ok, assertThat_ok, pure_ok, exists_const] at h
    rw [if_pos zero, ← h.2]
    rfl
  · rename_i more
    rw [pure_ok] at h
    rw [if_neg more, ← h]
    rfl

theorem cacheOnly_load : CacheOnly s (s.load part n) := ⟨rfl, rfl, rfl, rfl, rfl⟩

theorem cacheOnly_retain : CacheOnly s (s.retain addr) := ⟨rfl, rfl, rfl, rfl, rfl⟩

theorem cacheOnly_release : CacheOnly s (s.release addr) := ⟨rfl, rfl, rfl, rfl, rfl⟩

theorem inodeOpen_cacheOnly (h : inodeOpen part me s n = .ok (addr, t)) : CacheOnly s t := by
  obtain ⟨-, -, -, rfl⟩ | ⟨-, -, -, rfl⟩ := inodeOpen_ok h
  · exact cacheOnly_retain
  · exact cacheOnly_load

theorem inodeClose_cacheOnly (h : inodeClose me s addr = .ok t) : CacheOnly s t := by
  obtain ⟨-, rfl⟩ := inodeClose_ok h
  exact cacheOnly_release

end Inodes

/-- A property of the state that survives opening and closing an inode and asking for
memory. Looking up a path does nothing else. -/
structure CacheInvariant (part : Partition) (me : Option Nat) (I : Fs → Prop) : Prop where
  opens : ∀ {s t : Fs} {n addr : Nat}, inodeOpen part me s n = .ok (addr, t) → I s → I t
  closes : ∀ {s t : Fs} {addr : Nat}, inodeClose me s addr = .ok t → I s → I t
  mallocs : ∀ {s : Fs}, I s → I s.malloc

section Lookups

variable {part : Partition} {me : Option Nat} {I : Fs → Prop} {s t : Fs}

theorem CacheInvariant.dirOpen (inv : CacheInvariant part me I) {n : Nat} {dir : Dir}
    (h : dirOpen part me s n = .ok (dir, t)) (holds : I s) : I t := by
  simp only [Sparrow.dirOpen, bind_ok, mustMalloc_ok, pure_ok, Prod.exists] at h
  obtain ⟨s1, ⟨-, rfl⟩, addr, s2, opened, h⟩ := h
  cases h
  exact inv.opens opened (inv.mallocs holds)

/-- `dir_close` closes an inode or does nothing. -/
theorem dirClose_keeps (closes : ∀ {s t : Fs} {addr : Nat}, inodeClose me s addr = .ok t → I s → I t) {dir : Dir}
    (h : dirClose me s dir = .ok t) (holds : I s) : I t := by
  simp only [dirClose] at h
  split at h
  · rw [pure_ok] at h
    rw [← h]
    exact holds
  · exact closes h holds

theorem CacheInvariant.searchDirEntry (inv : CacheInvariant part me I) {dir : Dir} {name : List Byte} {r : Option DirEntry}
    (h : searchDirEntry part me s dir name = .ok (r, t)) (holds : I s) : I t := by
  simp only [Sparrow.searchDirEntry] at h
  split at h
  · simp only [bind_ok, defined_ok, mustMalloc_ok, pure_ok, exists_const] at h
    obtain ⟨-, s1, ⟨-, rfl⟩, found, -, h⟩ := h
    cases h
    exact inv.mallocs (inv.mallocs holds)
  · rw [pure_ok] at h
    cases h
    exact inv.mallocs holds

theorem CacheInvariant.walkPath (inv : CacheInvariant part me I) : ∀ (names : List (List Byte)) {s : Fs} {w : Walk}
    {r : SearchResult}, walkPath part me names w s = .ok (r, t) → I s → I t := by
  intro names
  induction names with
  | nil =>
    intro s w r h holds
    simp only [Sparrow.walkPath] at h
    split at h
    · rw [throw_ok] at h
      exact h.elim
    · simp only [bind_ok, pure_ok, Prod.exists] at h
      obtain ⟨s1, closed, dir, s2, opened, h⟩ := h
      cases h
      exact inv.dirOpen opened (dirClose_keeps inv.closes closed holds)
  | cons name rest ih =>
    intro s w r h holds
    simp only [Sparrow.walkPath, bind_ok, Prod.exists] at h
    obtain ⟨searched, -, found, s1, search, h⟩ := h
    have holds1 := inv.searchDirEntry search holds
    split at h
    · rw [pure_ok] at h
      cases h
      exact holds1
    · simp only [bind_ok, defined_ok, exists_const] at h
      obtain ⟨-, h⟩ := h
      split at h
      · simp only [bind_ok, Prod.exists] at h
        obtain ⟨s2, closed, dir, s3, opened, h⟩ := h
        exact ih h (inv.dirOpen opened (dirClose_keeps inv.closes closed holds1))
      · split at h
        · rw [pure_ok] at h
          cases h
          exact holds1
        · exact ih h holds1

/-- What opening and closing inodes preserves, looking up a path preserves. -/
theorem CacheInvariant.searchFile (inv : CacheInvariant part me I) {path : List Byte} {r : SearchResult}
    (h : searchFile part me s path = .ok (r, t)) (holds : I s) : I t := by
  simp only [Sparrow.searchFile] at h
  split at h
  · rw [pure_ok] at h
    cases h
    exact holds
  · simp only [bind_ok, assertThat_ok, defined_ok, exists_const] at h
    obtain ⟨-, -, h⟩ := h
    exact inv.walkPath _ h holds

theorem cacheInvariant_cacheOnly : CacheInvariant part me (CacheOnly s) where
  opens h only := only.trans (inodeOpen_cacheOnly h)
  closes h only := only.trans (inodeClose_cacheOnly h)
  mallocs only := only.trans ⟨rfl, rfl, rfl, rfl, rfl⟩

theorem dirClose_cacheOnly {dir : Dir} (h : dirClose me s dir = .ok t) : CacheOnly s t :=
  dirClose_keeps (fun closed only => only.trans (inodeClose_cacheOnly closed)) h (.refl s)

theorem searchFile_cacheOnly {path : List Byte} {r : SearchResult} (h : searchFile part me s path = .ok (r, t)) :
    CacheOnly s t :=
  cacheInvariant_cacheOnly.searchFile h (.refl s)

end Lookups

end Sparrow
