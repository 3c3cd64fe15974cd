import Sparrow.Fs.BlockUses
import Sparrow.Fs.Create
import Sparrow.Fs.FullDisk
import Sparrow.Fs.Mount
import Sparrow.Userprog.DescriptorCalls

/-!
# Positions in files

`fd_pos` of a slot should lie in its file, since `file_read` subtracts it from `i_size`.
`file_write` sets it to `i_size - 1` before a loop that may not run: with nothing to write to
an empty file it stays at the largest word there is.

No call of this module closes a file, so that all files stay in the cache from their creation
on; `FilesOpen` describes the system they leave, also when calls fail half way.
-/

namespace Sparrow
set_option autoImplicit false

/-- An open file has the inode number `m`. -/
def Named (s : Fs) (m : Nat) : Prop :=
  m ≠ 0 ∧ ∃ g a, g < maxFileOpen ∧ (s.fileTable g).fdInode = .inode a ∧ (s.inodes a).iNo = m

/-- An object of the cache is the root directory or a file, and refers to blocks of its kind. -/
structure TypedObject (U : Nat → BlockUse) (ino : Inode) : Prop where
  low : ino.iNo < 256
  dir : ino.iNo = 0 → RefersAs U .dir ino
  file : ino.iNo ≠ 0 → RefersAs U .file ino

/-- The root directory is the only one, all files are open, and `U` tells the blocks apart. -/
structure FilesOpen (part : Partition) (n : Nat) (U : Nat → BlockUse) (s : Fs) : Prop where
  uses : Uses part n s.disk s.blockBitmap U (Named s)
  len : s.inodeBitmap.btmpBytesLen = 512
  bits : ∀ m, m < 4096 → s.inodeBitmap.Set m → m = 0 ∨ Named s m
  zero : s.inodeBitmap.Set 0
  record : RefersAs U .dir (slot part s.disk 0) ∧ (slot part s.disk 0).iNo = 0
  fresh : ∀ a ∈ s.openInodes, a < s.nextAddr
  root : s.rootDir < s.nextAddr ∧ (s.inodes s.rootDir).iNo = 0
  objects : ∀ a, a ∈ s.openInodes ∨ a = s.rootDir → TypedObject U (s.inodes a)
  slots : ∀ g a, g < maxFileOpen → (s.fileTable g).fdInode = .inode a → a ∈ s.openInodes ∧ (s.inodes a).iNo ≠ 0
  files : ∀ g, (s.fileTable g).fdFlag ≠ pipeFlag

/-- The position of every occupied slot lies in its file. -/
def PlacesInside (s : Fs) : Prop :=
  ∀ g a, g < maxFileOpen → (s.fileTable g).fdInode = .inode a → (s.fileTable g).fdPos ≤ (s.inodes a).iSize

section Cache

variable {part : Partition} {n m a addr : Nat} {U U' : Nat → BlockUse} {me : Option Nat} {s t : Fs} {ino ino' : Inode}

theorem TypedObject.mono (h : KeepsUses U U') (typed : TypedObject U ino) : TypedObject U' ino :=
  ⟨typed.low, fun zero => (typed.dir zero).mono h, fun some_ => (typed.file some_).mono h⟩

/-- Counts and flags do not matter. -/
theorem TypedObject.flags (typed : TypedObject U ino) (cnt : Nat) (deny : Bool) :
    TypedObject U { ino with iOpenCnts := cnt, writeDeny := deny } :=
  ⟨typed.low, fun zero => (typed.dir zero).flags cnt deny, fun some_ => (typed.file some_).flags cnt deny⟩

/-- The names known depend on the slots and the numbers of their inodes. -/
theorem named_congr (files : t.fileTable = s.fileTable)
    (same : ∀ g a, g < maxFileOpen → (s.fileTable g).fdInode = .inode a → (t.inodes a).iNo = (s.inodes a).iNo) :
    Named t m ↔ Named s m := by
  refine and_congr_right fun _ => exists_congr fun g => exists_congr fun a => ?_
  rw [files]
  exact and_congr_right fun lt => and_congr_right fun is => by rw [same g a lt is]

/-- What holds of both states of a lookup: only the objects of the cache differ, and those of
the open files but in their counts. -/
structure LookedUp (U : Nat → BlockUse) (s t : Fs) : Prop extends CacheOnly s t where
  next : s.nextAddr ≤ t.nextAddr
  fresh : ∀ a ∈ t.openInodes, a < t.nextAddr
  objects : ∀ a, a ∈ t.openInodes ∨ a = t.rootDir → TypedObject U (t.inodes a)
  kept : ∀ a, a ∈ s.openInodes → (s.inodes a).iNo ≠ 0 → a ∈ t.openInodes
  same : ∀ a, a < s.nextAddr → SameStored (t.inodes a) (s.inodes a)

theorem LookedUp.refl (open_ : FilesOpen part n U s) : LookedUp U s s :=
  ⟨.refl s, Nat.le_refl _, open_.fresh, open_.objects, fun _ mem _ => mem, fun _ _ => .refl _⟩

theorem LookedUp.number (looked : LookedUp U s t) (lt : a < s.nextAddr) : (t.inodes a).iNo = (s.inodes a).iNo :=
  (looked.same a lt).iNo

theorem LookedUp.trans {u : Fs} (open_ : FilesOpen part n U s) (h : LookedUp U s t) (h' : LookedUp U t u) : LookedUp U s u := by
  refine ⟨h.toCacheOnly.trans h'.toCacheOnly, Nat.le_trans h.next h'.next, h'.fresh, h'.objects, fun a mem some_ => ?_,
    fun a lt => ?_⟩
  · exact h'.kept a (h.kept a mem some_) (by rwa [h.number (open_.fresh a mem)])
  · exact (h'.same a (Nat.lt_of_lt_of_le lt h.next)).trans (h.same a lt)

/-- A lookup leaves the files open and the positions where they are. -/
theorem FilesOpen.lookedUp (open_ : FilesOpen part n U s) (looked : LookedUp U s t) : FilesOpen part n U t := by
  have inside : ∀ g a, g < maxFileOpen → (s.fileTable g).fdInode = .inode a → (t.inodes a).iNo = (s.inodes a).iNo :=
    fun g a lt is => looked.number (open_.fresh a (open_.slots g a lt is).1)
  have named : ∀ m, Named t m ↔ Named s m := fun m => named_congr looked.fileTable inside
  refine ⟨?_, ?_, ?_, ?_, ?_, looked.fresh, ⟨?_, ?_⟩, looked.objects, fun g a lt is => ?_, ?_⟩
  · rw [looked.disk, looked.blockBitmap]
    exact open_.uses.mono fun m => (named m).2
  · rw [looked.inodeBitmap]
    exact open_.len
  · rw [looked.inodeBitmap]
    exact fun m lt set => (open_.bits m lt set).imp_right (named m).2
  · rw [looked.inodeBitmap]
    exact open_.zero
  · rw [looked.disk]
    exact open_.record
  · rw [looked.rootDir]
    exact Nat.lt_of_lt_of_le open_.root.1 looked.next
  · rw [looked.rootDir, looked.number open_.root.1]
    exact open_.root.2
  · rw [looked.fileTable] at is
    obtain ⟨mem, some_⟩ := open_.slots g a lt is
    rw [looked.number (open_.fresh a mem)]
    exact ⟨looked.kept a mem some_, some_⟩
  · rw [looked.fileTable]
    exact open_.files

theorem PlacesInside.lookedUp (inside : PlacesInside s) (open_ : FilesOpen part n U s) (looked : LookedUp U s t) : PlacesInside t := by
  intro g a lt is
  rw [looked.fileTable] at is ⊢
  rw [(looked.same a (open_.fresh a (open_.slots g a lt is).1)).iSize]
  exact inside g a lt is

theorem LookedUp.heap (open_ : FilesOpen part n U s) (mallocs : List Bool) : LookedUp U s { s with mallocs := mallocs } :=
  ⟨⟨rfl, rfl, rfl, rfl, rfl⟩, Nat.le_refl _, open_.fresh, open_.objects, fun _ mem _ => mem, fun _ _ => .refl _⟩

theorem LookedUp.malloc (open_ : FilesOpen part n U s) : LookedUp U s s.malloc := .heap open_ _

/-- **`inode_open`** of the root directory or of an open file. -/
theorem inodeOpen_looked (open_ : FilesOpen part n U s) (known : m = 0 ∨ Named s m)
    (h : inodeOpen part me s m = .ok (addr, t)) :
    LookedUp U s t ∧ addr ∈ t.openInodes ∧ (t.inodes addr).iNo = m := by
  obtain ⟨mem, number, -, rfl⟩ | ⟨absent, -, rfl, rfl⟩ := inodeOpen_ok h
  · have object : ∀ a, (s.retain addr).inodes a = { s.inodes a with iOpenCnts := ((s.retain addr).inodes a).iOpenCnts } := by
      intro a
      simp only [Fs.retain, Fs.setInode]
      split
      · rename_i e
        rw [e]
      · rfl
    refine ⟨⟨cacheOnly_retain, Nat.le_refl _, open_.fresh, fun a at_ => ?_, fun _ mem _ => mem, fun a _ => ?_⟩, mem, ?_⟩
    · rw [object]
      exact (open_.objects a at_).flags _ (s.inodes a).writeDeny
    · rw [object]
      exact ⟨rfl, rfl, rfl⟩
    · rw [object]
      exact number
  · -- an open file is in the cache, so this is the root directory
    have zero : m = 0 := by
      obtain zero | ⟨-, g, a, lt, is, number⟩ := known
      · exact zero
      · exact absurd number (absent a (open_.slots g a lt is).1)
    subst zero
    have old : ∀ a, a < s.nextAddr → (s.load part 0).inodes a = s.inodes a := fun a lt => if_neg (Nat.ne_of_lt lt)
    have new : (s.load part 0).inodes s.nextAddr = { slot part s.disk 0 with iOpenCnts := 1 } := if_pos rfl
    have typed : TypedObject U { slot part s.disk 0 with iOpenCnts := 1 } :=
      ⟨by rw [open_.record.2]; decide, fun _ => open_.record.1.flags _ _, fun some_ => absurd open_.record.2 some_⟩
    refine ⟨⟨cacheOnly_load, Nat.le_succ _, fun a mem => ?_, fun a at_ => ?_, fun a mem _ => List.mem_cons_of_mem _ mem,
      fun a lt => by rw [old a lt]; exact .refl _⟩, List.mem_cons_self, ?_⟩
    · obtain rfl | mem := List.mem_cons.1 mem
      · exact Nat.lt_succ_self _
      · exact Nat.lt_succ_of_lt (open_.fresh a mem)
    · by_cases e : a = s.nextAddr
      · rw [e, new]
        exact typed
      · have before : a ∈ s.openInodes ∨ a = s.rootDir := at_.imp_left fun mem => (List.mem_cons.1 mem).resolve_left e
        have lt : a < s.nextAddr := before.elim (open_.fresh a) fun is => is ▸ open_.root.1
        rw [old a lt]
        exact open_.objects a before
    · rw [new]
      exact open_.record.2

/-- **`inode_close`** of a handle on the root directory. -/
theorem inodeClose_looked (open_ : FilesOpen part n U s) (dir : (s.inodes addr).iNo = 0)
    (h : inodeClose me s addr = .ok t) : LookedUp U s t := by
  obtain ⟨-, rfl⟩ := inodeClose_ok h
  have object : ∀ a, (s.release addr).inodes a = { s.inodes a with iOpenCnts := ((s.release addr).inodes a).iOpenCnts } := by
    intro a
    simp only [Fs.release, Fs.setInode]
    split
    · rename_i e
      rw [e]
    · rfl
  have fewer : ∀ a, a ∈ (s.release addr).openInodes → a ∈ s.openInodes := by
    intro a mem
    simp only [Fs.release] at mem
    split at mem
    · exact List.mem_of_mem_erase mem
    · exact mem
  refine ⟨cacheOnly_release, Nat.le_refl _, fun a mem => open_.fresh a (fewer a mem), fun a at_ => ?_, fun a mem some_ => ?_,
    fun a _ => ?_⟩
  · rw [object]
    exact (open_.objects a (at_.imp_left (fewer a))).flags _ (s.inodes a).writeDeny
  · have ne : a ≠ addr := by
      rintro rfl
      exact some_ dir
    simp only [Fs.release]
    split
    · exact (List.mem_erase_of_ne ne).2 mem
    · exact mem
  · rw [object]
    exact ⟨rfl, rfl, rfl⟩

/-- A handle on the root directory. -/
def HandleAt (s : Fs) (d : Dir) : Prop := (d.inode ∈ s.openInodes ∨ d.inode = s.rootDir) ∧ (s.inodes d.inode).iNo = 0

theorem FilesOpen.rootHandle (open_ : FilesOpen part n U s) : HandleAt s s.root := ⟨.inr rfl, open_.root.2⟩

theorem dirOpen_looked {d : Dir} (open_ : FilesOpen part n U s) (h : dirOpen part me s 0 = .ok (d, t)) :
    LookedUp U s t ∧ HandleAt t d := by
  simp only [dirOpen, bind_ok, mustMalloc_ok, pure_ok, Prod.exists] at h
  obtain ⟨s1, ⟨-, rfl⟩, addr, s2, opened, h⟩ := h
  cases h
  have malloc := LookedUp.malloc open_
  obtain ⟨looked, mem, number⟩ := inodeOpen_looked (open_.lookedUp malloc) (.inl rfl) opened
  exact ⟨malloc.trans open_ looked, .inl mem, number⟩

theorem dirClose_looked {d : Dir} (open_ : FilesOpen part n U s) (handle : HandleAt s d) (h : dirClose me s d = .ok t) :
    LookedUp U s t := by
  simp only [dirClose] at h
  split at h
  · rw [pure_ok] at h
    rw [← h]
    exact .refl open_
  · exact inodeClose_looked open_ handle.2 h

/-- A handle on the root directory stays one while nothing but the heap is used. -/
theorem HandleAt.malloc {d : Dir} (handle : HandleAt s d) : HandleAt s.malloc d := handle

theorem HandleAt.refs {d : Dir} (open_ : FilesOpen part n U s) (handle : HandleAt s d) : RefersAs U .dir (s.inodes d.inode) :=
  (open_.objects _ handle.1).dir handle.2

/-- What `search_dir_entry` finds is an entry of the root directory. -/
theorem searchBlocks_entry (lay : Layout part n) {F : Nat → Prop} {disk : Image} {b : Bitmap} (uses : Uses part n disk b U F)
    {name : List Byte} {e : DirEntry} : ∀ l : List Nat, (∀ lba ∈ l, lba = 0 ∨ U lba = .data .dir) →
    searchBlocks part disk name l = .ok (some e) → RootEntry F e := by
  intro l
  induction l with
  | nil =>
    intro _ h
    rw [searchBlocks, pure_ok] at h
    cases h
  | cons lba rest ih =>
    intro lists h
    have later := ih fun x mem => lists x (List.mem_cons_of_mem _ mem)
    rw [searchBlocks] at h
    split at h
    · exact later h
    rename_i some_
    have slots : 512 / direntSize = 21 := rfl
    simp only [bind_ok, ideRead_ok, lay.dirEntrySize, slots] at h
    obtain ⟨buf, ⟨-, rfl⟩, h⟩ := h
    split at h
    · rename_i j found
      rw [pure_ok] at h
      cases h
      rw [decodeDirent_shifted]
      have lt := List.mem_range.1 (List.mem_of_find?_eq_some found)
      exact uses.entries lba ((lists lba List.mem_cons_self).resolve_left some_) j lt
    · exact later h

theorem searchDirEntry_looked (lay : Layout part n) {d : Dir} {name : List Byte} {found : Option DirEntry} (open_ : FilesOpen part n U s)
    (handle : HandleAt s d) (h : searchDirEntry part me s d name = .ok (found, t)) :
    LookedUp U s t ∧ HandleAt t d ∧ ∀ e, found = some e → RootEntry (Named t) e := by
  have malloc := LookedUp.malloc open_
  have open1 := open_.lookedUp malloc
  simp only [searchDirEntry] at h
  split at h
  · simp only [bind_ok, defined_ok, mustMalloc_ok, pure_ok, exists_const] at h
    obtain ⟨-, s1, ⟨-, rfl⟩, r, search, h⟩ := h
    cases h
    refine ⟨malloc.trans open_ (LookedUp.malloc open1), handle.malloc.malloc, fun e is => ?_⟩
    subst is
    simp only [searchEntry, bind_ok] at search
    obtain ⟨all, read, search⟩ := search
    obtain ⟨-, collected⟩ := allBlocks_ok read
    refine searchBlocks_entry lay open_.uses _ (fun lba mem => ?_) search
    obtain ⟨j, lt, rfl⟩ := List.mem_map.1 mem
    rw [collected j (List.mem_range.1 lt)]
    exact (handle.refs open_).reached open_.uses j (List.mem_range.1 lt)
  · rw [pure_ok] at h
    cases h
    exact ⟨malloc, handle.malloc, by rintro e ⟨⟩⟩

/-- What `search_file` leaves open and finds: the root directory, and a file that is open. -/
structure SearchedRoot (U : Nat → BlockUse) (s t : Fs) (r : SearchResult) : Prop where
  looked : LookedUp U s t
  handle : HandleAt t r.parentDir
  found : ∀ m, r.inodeNo = some m → r.fileType = .directory ∨ Named t m

/-- **The loop of `search_file`** stays in the root directory. -/
theorem walkPath_looked (lay : Layout part n) : ∀ (names : List (List Byte)) {s : Fs} {w : Walk} {r : SearchResult},
    walkPath part me names w s = .ok (r, t) → FilesOpen part n U s → HandleAt s w.parentDir → w.parentInodeNo = 0 →
    SearchedRoot U s t r := by
  intro names
  induction names with
  | nil =>
    intro s w r h open_ handle number
    simp only [walkPath] at h
    split at h
    · exact (throw_ok.1 h).elim
    · simp only [bind_ok, pure_ok, Prod.exists] at h
      obtain ⟨s1, closed, dir, s2, opened, h⟩ := h
      cases h
      rw [number] at opened
      have looked1 := dirClose_looked open_ handle closed
      obtain ⟨looked2, handle2⟩ := dirOpen_looked (open_.lookedUp looked1) opened
      exact ⟨looked1.trans open_ looked2, handle2, fun _ _ => .inl rfl⟩
  | cons name rest ih =>
    intro s w r h open_ handle number
    simp only [walkPath, bind_ok, Prod.exists] at h
    obtain ⟨searched, -, found, s1, search, h⟩ := h
    obtain ⟨looked1, handle1, entry⟩ := searchDirEntry_looked lay open_ handle search
    have open1 := open_.lookedUp looked1
    split at h
    · rw [pure_ok] at h
      cases h
      exact ⟨looked1, handle1, by rintro m ⟨⟩⟩
    rename_i e
    have rootEntry := entry e rfl
    simp only [bind_ok, defined_ok, exists_const] at h
    obtain ⟨-, h⟩ := h
    split at h
    · rename_i dir
      simp only [bind_ok, Prod.exists, rootEntry.dir dir] at h
      obtain ⟨s2, closed, d, s3, opened, h⟩ := h
      have looked2 := dirClose_looked open1 handle1 closed
      have open2 := open1.lookedUp looked2
      obtain ⟨looked3, handle3⟩ := dirOpen_looked open2 opened
      have whole := ih h (open2.lookedUp looked3) handle3 handle1.2
      exact ⟨(looked1.trans open_ (looked2.trans open1 looked3)).trans open_ whole.looked, whole.handle, whole.found⟩
    · split at h
      · rename_i file
        rw [pure_ok] at h
        cases h
        refine ⟨looked1, handle1, fun m is => ?_⟩
        cases is
        exact .inr (rootEntry.file file)
      · have whole := ih h open1 handle1 number
        exact ⟨looked1.trans open_ whole.looked, whole.handle, whole.found⟩

theorem searchFile_looked (lay : Layout part n) {path : List Byte} {r : SearchResult} (open_ : FilesOpen part n U s)
    (h : searchFile part me s path = .ok (r, t)) : SearchedRoot U s t r := by
  simp only [searchFile] at h
  split at h
  · rw [pure_ok] at h
    cases h
    exact ⟨.refl open_, open_.rootHandle, fun _ _ => .inl rfl⟩
  · simp only [bind_ok, assertThat_ok, defined_ok, exists_const] at h
    obtain ⟨-, -, h⟩ := h
    exact walkPath_looked lay _ h open_ open_.rootHandle rfl

end Cache

section Open

variable {part : Partition} {n m g : Nat} {U : Nat → BlockUse} {me : Option Nat} {s t : Fs} {fdTable fdTable' : Nat → Int}
  {flag : Nat} {r : Option Nat}

/-- A free slot is filled, or stays free. -/
theorem FilesOpen.setFile (open_ : FilesOpen part n U s) (inside : PlacesInside s) (free : (s.fileTable g).fdInode = .null)
    (file : File) (holds : ∀ a, file.fdInode = .inode a → a ∈ s.openInodes ∧ (s.inodes a).iNo ≠ 0) (pos : file.fdPos = 0)
    (noPipe : file.fdFlag ≠ pipeFlag) : FilesOpen part n U (s.setFile g file) ∧ PlacesInside (s.setFile g file) := by
  have named : ∀ m, Named s m → Named (s.setFile g file) m := by
    rintro m ⟨some_, i, a, lt, is, number⟩
    have ne : i ≠ g := by
      rintro rfl
      rw [free] at is
      cases is
    exact ⟨some_, i, a, lt, by rw [Fs.setFile_of_ne s file ne]; exact is, number⟩
  refine ⟨⟨open_.uses.mono named, open_.len, fun m lt set => (open_.bits m lt set).imp_right (named m), open_.zero, open_.record,
    open_.fresh, open_.root, open_.objects, fun i a lt is => ?_, fun i => ?_⟩, fun i a lt is => ?_⟩
  · by_cases e : i = g
    · rw [e, Fs.setFile_self] at is
      exact holds a is
    · rw [Fs.setFile_of_ne s file e] at is
      exact open_.slots i a lt is
  · by_cases e : i = g
    · rw [e, Fs.setFile_self]
      exact noPipe
    · rw [Fs.setFile_of_ne s file e]
      exact open_.files i
  · by_cases e : i = g
    · rw [e, Fs.setFile_self, pos]
      exact Nat.zero_le _
    · rw [Fs.setFile_of_ne s file e] at is ⊢
      exact inside i a lt is

/-- `write_deny` is set. -/
theorem LookedUp.setDeny (open_ : FilesOpen part n U s) (addr : Nat) (deny : Bool) :
    LookedUp U s (s.setInode addr { s.inodes addr with writeDeny := deny }) := by
  refine ⟨⟨rfl, rfl, rfl, rfl, rfl⟩, Nat.le_refl _, open_.fresh, fun a at_ => ?_, fun _ mem _ => mem, fun a _ => ?_⟩
  · by_cases e : a = addr
    · rw [e] at at_ ⊢
      rw [Fs.setInode_self]
      exact (open_.objects addr at_).flags _ _
    · rw [Fs.setInode_of_ne s _ e]
      exact open_.objects a at_
  · by_cases e : a = addr
    · rw [e, Fs.setInode_self]
      exact ⟨rfl, rfl, rfl⟩
    · rw [Fs.setInode_of_ne s _ e]
      exact .refl _

/-- **`file_open`** of a file that is open already. -/
theorem fileOpen_places (open_ : FilesOpen part n U s) (inside : PlacesInside s) (known : Named s m) (small : flag ≤ 7)
    (h : fileOpen part me s fdTable m flag = .ok (r, t, fdTable')) : FilesOpen part n U t ∧ PlacesInside t := by
  have noPipe : flag ≠ pipeFlag := by
    rw [pipeFlag]
    omega
  simp only [fileOpen] at h
  split at h
  · rw [pure_ok] at h
    cases h
    exact ⟨open_, inside⟩
  rename_i g found
  obtain ⟨-, -, free⟩ := getFreeSlotInGlobal_some found
  simp only [bind_ok, Prod.exists] at h
  obtain ⟨addr, s1, opened, h⟩ := h
  obtain ⟨looked, mem, number⟩ := inodeOpen_looked open_ (.inr known) opened
  have open1 := open_.lookedUp looked
  have inside1 := inside.lookedUp open_ looked
  rw [← looked.fileTable] at free
  split at h
  · -- refused: the slot is given back
    rw [pure_ok, Fs.setFile_setFile] at h
    cases h
    exact open1.setFile inside1 free _ (by rintro a ⟨⟩) (by rw [Fs.setFile_self])
      (by rw [Fs.setFile_self]; exact noPipe)
  · rw [pure_ok] at h
    cases h
    obtain ⟨open2, inside2⟩ := open1.setFile inside1 free ⟨0, flag, .inode addr⟩
      (fun a is => by cases is; exact ⟨mem, by rw [number]; exact known.1⟩) rfl noPipe
    split
    · have deny := LookedUp.setDeny open2 addr true
      exact ⟨open2.lookedUp deny, inside2.lookedUp open2 deny⟩
    · exact ⟨open2, inside2⟩

/-- There are fewer slots than inode numbers below 256. -/
theorem FilesOpen.freeNumber (open_ : FilesOpen part n U s) : ∃ m, m < 256 ∧ ¬ s.inodeBitmap.Set m := by
  by_contra none
  have named : ∀ m, m < 255 → ∃ g, g < maxFileOpen ∧ ∃ a, (s.fileTable g).fdInode = .inode a ∧ (s.inodes a).iNo = m + 1 := by
    intro m lt
    have set : s.inodeBitmap.Set (m + 1) := by
      by_contra clear
      exact none ⟨m + 1, by omega, clear⟩
    obtain zero | ⟨-, g, a, ltg, is, number⟩ := open_.bits (m + 1) (by omega) set
    · omega
    · exact ⟨g, ltg, a, is, number⟩
  choose! slot low holds using named
  obtain ⟨m, mem, m', mem', ne, same⟩ := Finset.exists_ne_map_eq_of_card_lt_of_maps_to
    (s := Finset.range 255) (t := Finset.range maxFileOpen) (f := slot)
    (by rw [Finset.card_range, Finset.card_range]; decide)
    (fun m mem => Finset.mem_range.2 (low m (Finset.mem_range.1 mem)))
  obtain ⟨a, is, number⟩ := holds m (Finset.mem_range.1 mem)
  obtain ⟨a', is', number'⟩ := holds m' (Finset.mem_range.1 mem')
  rw [← same, is] at is'
  cases is'
  exact ne (by omega)

/-- The state after the root directory changed, and perhaps one file was opened in slot `g` through the object at `s.nextAddr`. -/
structure DirChanged (part : Partition) (U' : Nat → BlockUse) (s t : Fs) (d : Nat) (v : Vnode) : Prop where
  typed : RefersAs U' .dir v.inode ∧ v.inode.iNo = 0
  record : RefersAs U' .dir (slot part t.disk 0) ∧ (slot part t.disk 0).iNo = 0
  bits : t.inodeBitmap.btmpBytesLen = 512 ∧ t.inodeBitmap.Set 0 ∧ ∀ m, t.inodeBitmap.Set m → s.inodeBitmap.Set m ∨ Named t m
  rootDir : t.rootDir = s.rootDir
  next : s.nextAddr ≤ t.nextAddr
  inodes : ∀ a, a < s.nextAddr → t.inodes a = if a = d then v.inode else s.inodes a
  kept : ∀ a, a ∈ s.openInodes → a ∈ t.openInodes
  list : ∀ a, a ∈ t.openInodes → a ∈ s.openInodes ∨ a < t.nextAddr ∧ TypedObject U' (t.inodes a)
  slots : ∀ i a, i < maxFileOpen → (t.fileTable i).fdInode = .inode a →
    t.fileTable i = s.fileTable i ∨ a ∈ t.openInodes ∧ (t.inodes a).iNo ≠ 0 ∧ (t.fileTable i).fdPos = 0
  stays : ∀ i a, i < maxFileOpen → (s.fileTable i).fdInode = .inode a → t.fileTable i = s.fileTable i
  files : ∀ i, (t.fileTable i).fdFlag ≠ pipeFlag

/-- The names known before are known. -/
theorem DirChanged.named {U' : Nat → BlockUse} {d : Nat} {v : Vnode} (changed : DirChanged part U' s t d v)
    (open_ : FilesOpen part n U s) (dir : (s.inodes d).iNo = 0) (known : Named s m) : Named t m := by
  obtain ⟨some_, g, a, lt, is, number⟩ := known
  obtain ⟨mem, notDir⟩ := open_.slots g a lt is
  refine ⟨some_, g, a, lt, by rw [changed.stays g a lt is]; exact is, ?_⟩
  rw [changed.inodes a (open_.fresh a mem), if_neg]
  · exact number
  · rintro rfl
    exact notDir dir

theorem DirChanged.places {U' : Nat → BlockUse} {d : Nat} {v : Vnode} (changed : DirChanged part U' s t d v)
    (open_ : FilesOpen part n U s) (inside : PlacesInside s) (dir : (s.inodes d).iNo = 0) (keeps : KeepsUses U U')
    (uses : Uses part n t.disk t.blockBitmap U' (Named t)) : FilesOpen part n U' t ∧ PlacesInside t := by
  have object : ∀ a, a ∈ s.openInodes ∨ a = s.rootDir → TypedObject U' (t.inodes a) := by
    intro a at_
    have lt : a < s.nextAddr := at_.elim (open_.fresh a) fun is => is ▸ open_.root.1
    rw [changed.inodes a lt]
    split
    · exact ⟨by rw [changed.typed.2]; decide, fun _ => changed.typed.1, fun some_ => absurd changed.typed.2 some_⟩
    · exact (open_.objects a at_).mono keeps
  have slot : ∀ i a, i < maxFileOpen → (s.fileTable i).fdInode = .inode a →
      a ∈ s.openInodes ∧ (s.inodes a).iNo ≠ 0 ∧ t.inodes a = s.inodes a := by
    intro i a lt is
    obtain ⟨mem, notDir⟩ := open_.slots i a lt is
    refine ⟨mem, notDir, ?_⟩
    rw [changed.inodes a (open_.fresh a mem), if_neg]
    rintro rfl
    exact notDir dir
  refine ⟨⟨uses, changed.bits.1, fun m lt set => ?_, changed.bits.2.1, changed.record, fun a mem => ?_, ⟨?_, ?_⟩, fun a at_ => ?_,
    fun i a lt is => ?_, changed.files⟩, fun i a lt is => ?_⟩
  · obtain before | new := changed.bits.2.2 m set
    · exact (open_.bits m lt before).imp_right (changed.named open_ dir)
    · exact .inr new
  · obtain before | ⟨lt, -⟩ := changed.list a mem
    · exact Nat.lt_of_lt_of_le (open_.fresh a before) changed.next
    · exact lt
  · rw [changed.rootDir]
    exact Nat.lt_of_lt_of_le open_.root.1 changed.next
  · rw [changed.rootDir, changed.inodes _ open_.root.1]
    split
    · exact changed.typed.2
    · exact open_.root.2
  · rw [changed.rootDir] at at_
    rcases at_ with mem | root
    · obtain before | ⟨-, typed⟩ := changed.list a mem
      · exact object a (.inl before)
      · exact typed
    · exact object a (.inr root)
  · obtain same | ⟨mem, some_, -⟩ := changed.slots i a lt is
    · rw [same] at is
      obtain ⟨mem, some_, obj⟩ := slot i a lt is
      exact ⟨changed.kept a mem, by rw [obj]; exact some_⟩
    · exact ⟨mem, some_⟩
  · obtain same | ⟨-, -, pos⟩ := changed.slots i a lt is
    · rw [same] at is ⊢
      rw [(slot i a lt is).2.2]
      exact inside i a lt is
    · rw [pos]
      exact Nat.zero_le _

/-- In `file_create` an object is made and nothing more. -/
theorem LookedUp.withNew {f : Nat} (open_ : FilesOpen part n U s) :
    LookedUp U s { s.withNew me f with inodeBitmap := s.inodeBitmap } := by
  have old : ∀ a, a < s.nextAddr → (s.withNew me f).inodes a = s.inodes a := fun a lt => if_neg (Nat.ne_of_lt lt)
  refine ⟨⟨rfl, rfl, rfl, rfl, rfl⟩, Nat.le_succ _, fun a mem => Nat.lt_succ_of_lt (open_.fresh a mem), fun a at_ => ?_,
    fun _ mem _ => mem, fun a lt => ?_⟩
  · have lt : a < s.nextAddr := at_.elim (open_.fresh a) fun is => is ▸ open_.root.1
    show TypedObject U ((s.withNew me f).inodes a)
    rw [old a lt]
    exact open_.objects a at_
  · show SameStored ((s.withNew me f).inodes a) _
    rw [old a lt]
    exact .refl _

/-- In `file_create` the slot `g` is taken by the new object and the directory at `a` has changed to `v`. -/
abbrev Fs.withEntry (s : Fs) (me : Option Nat) (f g flag a : Nat) (v : Vnode) : Fs :=
  ((s.withNew me f).setFile g ⟨0, flag, .inode s.nextAddr⟩).setVnode a v

theorem withEntry_inodes {f g a a' : Nat} {v : Vnode} (lt : a' < s.nextAddr) :
    (s.withEntry me f g flag a v).inodes a' = if a' = a then v.inode else s.inodes a' := by
  have old : (s.withNew me f).inodes a' = s.inodes a' := if_neg (Nat.ne_of_lt lt)
  simp only [Fs.setVnode, Fs.setInode, Fs.setFile, old]

/-- In `file_create` without room in the directory the slot is free again. -/
theorem dirChanged_noRoom {U' : Nat → BlockUse} {f g a : Nat} {v : Vnode} (open_ : FilesOpen part n U s)
    (null : (s.fileTable g).fdInode = .null) (typed : RefersAs U' .dir v.inode ∧ v.inode.iNo = 0)
    (record : RefersAs U' .dir (slot part v.disk 0) ∧ (slot part v.disk 0).iNo = 0) :
    DirChanged part U' s { (s.withEntry me f g flag a v).setFile g File.empty with inodeBitmap := s.inodeBitmap } a v := by
  refine ⟨typed, record, ⟨open_.len, open_.zero, fun m set => .inl set⟩, rfl, Nat.le_succ _, fun a' lt => withEntry_inodes lt,
    fun _ mem => mem, fun _ mem => .inl mem, fun i a' _ is => ?_, fun i a' _ is => ?_, fun i => ?_⟩
  · by_cases e : i = g
    · simp only [Fs.setFile, e, if_true, File.empty] at is
      cases is
    · left
      simp only [Fs.setFile, Fs.setVnode, Fs.setInode, Fs.withNew, e, if_false]
      rfl
  · have ne : i ≠ g := by
      rintro rfl
      rw [null] at is
      cases is
    simp only [Fs.setFile, Fs.setVnode, Fs.setInode, Fs.withNew, ne, if_false]
    rfl
  · by_cases e : i = g
    · simp only [Fs.setFile, e, if_true]
      decide
    · simp only [Fs.setFile, Fs.setVnode, Fs.setInode, Fs.withNew, e, if_false]
      exact open_.files i

/-- At the end of `file_create` file `f` is open in slot `g` with the object at `s.nextAddr`, and the directory at `a` has changed
to `v`. -/
structure FileEntered (s t : Fs) (f g flag a : Nat) (v : Vnode) : Prop where
  blockBitmap : t.blockBitmap = v.blockBitmap
  inodeBitmap : t.inodeBitmap = bitmapSet s.inodeBitmap f true
  rootDir : t.rootDir = s.rootDir
  next : t.nextAddr = s.nextAddr + 1
  openInodes : t.openInodes = s.nextAddr :: s.openInodes
  inodes : ∀ a', a' < s.nextAddr → t.inodes a' = if a' = a then v.inode else s.inodes a'
  new : t.inodes s.nextAddr = { inodeInit f with iOpenCnts := 1 }
  files : ∀ i, t.fileTable i = if i = g then ⟨0, flag, .inode s.nextAddr⟩ else s.fileTable i

theorem FileEntered.named {f g a : Nat} {v : Vnode} (entered : FileEntered s t f g flag a v) (notZero : f ≠ 0) (lt : g < maxFileOpen) :
    Named t f :=
  ⟨notZero, g, s.nextAddr, lt, by rw [entered.files, if_pos rfl], by rw [entered.new]; rfl⟩

theorem FileEntered.changed {U' : Nat → BlockUse} {f g a : Nat} {v : Vnode} (entered : FileEntered s t f g flag a v)
    (open_ : FilesOpen part n U s) (low : f < 256) (notZero : f ≠ 0) (ltg : g < maxFileOpen)
    (null : (s.fileTable g).fdInode = .null) (noPipe : flag ≠ pipeFlag) (typed : RefersAs U' .dir v.inode ∧ v.inode.iNo = 0)
    (record : RefersAs U' .dir (slot part t.disk 0) ∧ (slot part t.disk 0).iNo = 0) : DirChanged part U' s t a v := by
  have typedNew : TypedObject U' (t.inodes s.nextAddr) := by
    rw [entered.new]
    exact ⟨low, fun zero => absurd zero notZero, fun _ => (refersAs_init (by omega)).flags 1 false⟩
  refine ⟨typed, record, ⟨by rw [entered.inodeBitmap]; exact open_.len, ?_, fun m set => ?_⟩, entered.rootDir,
    by rw [entered.next]; exact Nat.le_succ _, entered.inodes,
    fun a' mem => by rw [entered.openInodes]; exact List.mem_cons_of_mem _ mem, fun a' mem => ?_, fun i a' _ is => ?_,
    fun i a' _ is => ?_, fun i => ?_⟩
  · rw [entered.inodeBitmap, set_bitmapSet, if_neg notZero.symm]
    exact open_.zero
  · rw [entered.inodeBitmap, set_bitmapSet] at set
    by_cases e : m = f
    · rw [e]
      exact .inr (entered.named notZero ltg)
    · rw [if_neg e] at set
      exact .inl set
  · rw [entered.openInodes] at mem
    obtain rfl | mem := List.mem_cons.1 mem
    · exact .inr ⟨by rw [entered.next]; exact Nat.lt_succ_self _, typedNew⟩
    · exact .inl mem
  · rw [entered.files] at is ⊢
    by_cases e : i = g
    · rw [if_pos e] at is ⊢
      cases is
      refine .inr ⟨by rw [entered.openInodes]; exact List.mem_cons_self, ?_, rfl⟩
      rw [entered.new]
      exact notZero
    · rw [if_neg e]
      exact .inl rfl
  · rw [entered.files, if_neg]
    rintro rfl
    rw [null] at is
    cases is
  · rw [entered.files]
    split
    · exact noPipe
    · exact open_.files i

/-- What `file_create` stores at its end: the records of the directory and the file, and the bitmap. -/
theorem fileCreated_entered (lay : Layout part n) {f g a : Nat} {v : Vnode} (lt : a < s.nextAddr) (low : f < 256) (notZero : f ≠ 0)
    (zero : v.inode.iNo = 0) (range : v.inode.InRange)
    (h : fileCreated part (s.withEntry me f g flag a v) a s.nextAddr f = .ok t) :
    FileEntered s t f g flag a v ∧ Stored part t.disk 0 v.inode ∧
      DiskFrame part (fun _ => False) (fun x => x = 0 ∨ x = f) v.disk t.disk := by
  have notNew : s.nextAddr ≠ a := (Nat.ne_of_lt lt).symm
  have parent : (s.withEntry me f g flag a v).inodes a = v.inode := if_pos rfl
  have new : (s.withEntry me f g flag a v).inodes s.nextAddr = inodeInit f := (if_neg notNew).trans (if_pos rfl)
  simp only [fileCreated, bind_ok, pure_ok, parent, new] at h
  obtain ⟨d₁, h₁, d₂, h₂, d₃, h₃, rfl⟩ := h
  obtain ⟨stored, -, frame, -⟩ := twoStored lay (by rw [zero]; decide) (show (inodeInit f).iNo < 256 from low)
    (by rw [zero]; exact notZero.symm) range (inodeInit_inRange (by omega)) h₁ h₂ h₃
  rw [zero] at stored frame
  refine ⟨⟨rfl, rfl, rfl, rfl, rfl, fun a' lt' => ?_, ?_, fun _ => rfl⟩, stored, frame⟩
  · rw [Fs.setInode_of_ne _ _ (Nat.ne_of_lt lt')]
    exact withEntry_inodes lt'
  · rw [Fs.setInode_self]

/-- **`file_create`** in the root directory. -/
theorem fileCreate_places (lay : Layout part n) {d : Dir} {name : List Byte} (open_ : FilesOpen part n U s) (inside : PlacesInside s)
    (handle : HandleAt s d) (small : flag ≤ 7) (h : fileCreate part me s fdTable d name flag = .ok (r, t, fdTable')) :
    ∃ U', FilesOpen part n U' t ∧ PlacesInside t ∧ HandleAt t d := by
  have noPipe : flag ≠ pipeFlag := by
    rw [pipeFlag]
    omega
  obtain ⟨f, low, clear, alloc⟩ := inodeBitmapAlloc_low open_.len open_.freeNumber
  have notZero : f ≠ 0 := fun e => clear (e ▸ open_.zero)
  have lt : d.inode < s.nextAddr := handle.1.elim (open_.fresh _) fun is => is ▸ open_.root.1
  have vnode : (s.withNew me f).vnode d.inode = s.vnode d.inode := by
    rw [Fs.vnode, show (s.withNew me f).inodes d.inode = s.inodes d.inode from if_neg (Nat.ne_of_lt lt)]
    rfl
  have malloc := LookedUp.malloc open_
  obtain ⟨-, -, -, rfl | rfl | rfl⟩ | ⟨g, e, ok, v, ⟨-, -, free⟩, made, synced, ends⟩ := fileCreate_ok alloc h
  · exact ⟨U, open_.lookedUp malloc, inside.lookedUp open_ malloc, handle⟩
  · rw [bitmapSet_undo clear]
    have looked := malloc.trans open_ (LookedUp.malloc (open_.lookedUp malloc))
    exact ⟨U, open_.lookedUp looked, inside.lookedUp open_ looked, handle⟩
  · rw [bitmapSet_undo clear]
    have looked : LookedUp U s { s.withNew me f with inodeBitmap := s.inodeBitmap } := .withNew open_
    exact ⟨U, open_.lookedUp looked, inside.lookedUp open_ looked, handle.1, (looked.number lt).trans handle.2⟩
  obtain ⟨-, ltg, null⟩ := getFreeSlotInGlobal_some free
  rw [vnode] at synced
  have entry : NewEntry (Named s) (fun m => Named s m ∨ m = f) e := by
    simp only [createDirEntry, bind_ok, assertThat_ok, pure_ok, exists_const] at made
    obtain ⟨-, rfl⟩ := made
    exact ⟨show f < 2 ^ 32 by omega, FileTypes.regular.code_lt, ⟨by rintro ⟨⟩, fun _ => .inr rfl⟩, fun _ => .inl⟩
  obtain ⟨U', grown, kept⟩ := syncDirEntry_uses lay open_.uses (handle.refs open_) entry synced
  have number : v.inode.iNo = 0 := grown.number.trans handle.2
  obtain ⟨rfl, -, -, rfl⟩ | ⟨rfl, -, created⟩ := ends
  · -- no room in the directory: the slot is free again
    rw [bitmapSet_undo clear]
    have record : RefersAs U' .dir (slot part v.disk 0) ∧ (slot part v.disk 0).iNo = 0 := by
      rw [grown.step.slot_eq (by decide) fun h => h]
      exact ⟨open_.record.1.mono grown.keeps, open_.record.2⟩
    have changed : DirChanged part U' s
        { (s.withEntry me f g flag d.inode v).setFile g File.empty with inodeBitmap := s.inodeBitmap } d.inode v :=
      dirChanged_noRoom open_ null ⟨grown.refs, number⟩ record
    obtain ⟨open', inside'⟩ := changed.places open_ inside handle.2 grown.keeps
      ((kept rfl).mono fun m known => changed.named open_ handle.2 known)
    refine ⟨U', open', inside', handle.1, ?_⟩
    rw [changed.inodes _ lt, if_pos rfl]
    exact number
  · -- the file is there, and open
    obtain ⟨entered, stored, frame⟩ := fileCreated_entered lay lt low notZero number grown.refs.range created
    have record : RefersAs U' .dir (slot part t.disk 0) ∧ (slot part t.disk 0).iNo = 0 := by
      refine ⟨grown.refs.congr (stored.same.inRange grown.refs.range) stored.same.sec fun _ small => ?_, stored.same.iNo.trans number⟩
      rw [stored.same.iSize]
      exact small
    have changed := entered.changed open_ low notZero ltg null noPipe ⟨grown.refs, number⟩ record
    have uses : Uses part n t.disk t.blockBitmap U' (Named t) := by
      have known : ∀ m, Named s m ∨ m = f → Named t m := by
        rintro m (known | rfl)
        · exact changed.named open_ handle.2 known
        · exact entered.named notZero ltg
      rw [entered.blockBitmap]
      exact (grown.uses.frame frame fun _ h => h.elim).mono known
    obtain ⟨open', inside'⟩ := changed.places open_ inside handle.2 grown.keeps uses
    refine ⟨U', open', inside', ?_, ?_⟩
    · rw [entered.openInodes, entered.rootDir]
      exact handle.1.imp_left fun mem => List.mem_cons_of_mem _ mem
    · rw [changed.inodes _ lt, if_pos rfl]
      exact number

/-- **`sys_open`** opens a file that is there, makes one, or neither. -/
theorem openPath_places (lay : Layout part n) {path : List Byte} {flags : Nat} {fd : Option Nat} (open_ : FilesOpen part n U s)
    (inside : PlacesInside s) (h : openPath part me s fdTable path flags = .ok (fd, t, fdTable')) :
    ∃ U', FilesOpen part n U' t ∧ PlacesInside t := by
  simp only [openPath, bind_ok, defined_ok, exists_const] at h
  obtain ⟨-, h⟩ := h
  split at h
  · rw [pure_ok] at h
    cases h
    exact ⟨U, open_, inside⟩
  simp only [bind_ok, assertThat_ok, exists_const, Prod.exists] at h
  obtain ⟨small, depth, -, r, s1, search, h⟩ := h
  have searched := searchFile_looked lay open_ search
  have open1 := open_.lookedUp searched.looked
  have inside1 := inside.lookedUp open_ searched.looked
  have closing : ∀ {U' : Nat → BlockUse} {s2 s3 : Fs}, FilesOpen part n U' s2 → PlacesInside s2 → HandleAt s2 r.parentDir →
      closeParent me s2 r = .ok s3 → ∃ U', FilesOpen part n U' s3 ∧ PlacesInside s3 := by
    intro U' s2 s3 open2 inside2 handle closed
    have looked := dirClose_looked open2 handle closed
    exact ⟨U', open2.lookedUp looked, inside2.lookedUp open2 looked⟩
  split at h
  · simp only [bind_ok, pure_ok] at h
    obtain ⟨s2, closed, h⟩ := h
    cases h
    exact closing open1 inside1 searched.handle closed
  rename_i notDir
  simp only [bind_ok] at h
  obtain ⟨depth', -, h⟩ := h
  split at h
  · simp only [bind_ok, pure_ok] at h
    obtain ⟨s2, closed, h⟩ := h
    cases h
    exact closing open1 inside1 searched.handle closed
  split at h
  · split at h
    · simp only [bind_ok, pure_ok] at h
      obtain ⟨s2, closed, h⟩ := h
      cases h
      exact closing open1 inside1 searched.handle closed
    · simp only [bind_ok, pure_ok, Prod.exists] at h
      obtain ⟨fd', s2, table, created, s3, closed, h⟩ := h
      cases h
      obtain ⟨U', open2, inside2, handle2⟩ := fileCreate_places lay open1 inside1 searched.handle small created
      exact closing open2 inside2 handle2 closed
  · rename_i m found
    split at h
    · simp only [bind_ok, pure_ok] at h
      obtain ⟨s2, closed, h⟩ := h
      cases h
      exact closing open1 inside1 searched.handle closed
    · exact ⟨U, fileOpen_places open1 inside1 ((searched.found m found).resolve_left notDir) small h⟩

end Open

section Transfer

variable {part : Partition} {n g count : Nat} {U : Nat → BlockUse} {me : Option Nat} {s t : Fs} {r : Option Nat}

/-- A write of nothing that is carried out on the empty file of slot `g`: both buffers of
`file_write` can be had, and the first block is there or can be allocated. -/
structure EmptyWrite (n : Nat) (s : Fs) (g count : Nat) : Prop where
  none : count = 0
  empty : ∃ a, (s.fileTable g).fdInode = .inode a ∧ (s.inodes a).iSize = 0 ∧
    ((s.inodes a).sec 0 ≠ 0 ∨ ∃ i, i < n ∧ ¬ s.blockBitmap.Set i)
  memory : s.mallocOk = true ∧ s.malloc.mallocOk = true

/-- The position of a slot does not matter for what is open. -/
theorem FilesOpen.movePos (open_ : FilesOpen part n U s) (g pos : Nat) :
    FilesOpen part n U (s.setFile g { s.fileTable g with fdPos := pos }) := by
  have files : ∀ i, ((s.setFile g { s.fileTable g with fdPos := pos }).fileTable i).fdInode = (s.fileTable i).fdInode ∧
      ((s.setFile g { s.fileTable g with fdPos := pos }).fileTable i).fdFlag = (s.fileTable i).fdFlag := by
    intro i
    by_cases e : i = g
    · rw [e, Fs.setFile_self]
      exact ⟨rfl, rfl⟩
    · rw [Fs.setFile_of_ne _ _ e]
      exact ⟨rfl, rfl⟩
  have named : ∀ m, Named s m → Named (s.setFile g { s.fileTable g with fdPos := pos }) m := by
    rintro m ⟨some_, i, a, lt, is, number⟩
    exact ⟨some_, i, a, lt, (files i).1.trans is, number⟩
  refine ⟨open_.uses.mono named, open_.len, fun m low set => (open_.bits m low set).imp_right (named m), open_.zero, open_.record,
    open_.fresh, open_.root, open_.objects, fun i a lt is => ?_, fun i => ?_⟩
  · rw [(files i).1] at is
    exact open_.slots i a lt is
  · rw [(files i).2]
    exact open_.files i

/-- What `file_write` did to a file keeps the files open. -/
theorem FilesOpen.stored (open_ : FilesOpen part n U s) {addr : Nat} {v : Vnode} {U' : Nat → BlockUse} (mem : addr ∈ s.openInodes)
    (some_ : (s.inodes addr).iNo ≠ 0) (stored : FileStored part n (Named s) U U' (s.vnode addr) v) :
    FilesOpen part n U' (s.setVnode addr v) := by
  have typed := open_.objects addr (.inl mem)
  have number : v.inode.iNo = (s.inodes addr).iNo := stored.number
  have object : ∀ a, (s.setVnode addr v).inodes a = if a = addr then v.inode else s.inodes a := fun _ => rfl
  have same : ∀ a, ((s.setVnode addr v).inodes a).iNo = (s.inodes a).iNo := by
    intro a
    rw [object]
    split
    · rename_i e
      rw [e]
      exact number
    · rfl
  have named : ∀ m, Named s m → Named (s.setVnode addr v) m := by
    rintro m ⟨notZero, i, a, lti, is, named⟩
    exact ⟨notZero, i, a, lti, is, (same a).trans named⟩
  refine ⟨stored.uses.mono named, open_.len, fun m low set => (open_.bits m low set).imp_right (named m), open_.zero, ?_,
    open_.fresh, ⟨open_.root.1, (same _).trans open_.root.2⟩, fun a at_ => ?_, fun i a lt is => ?_, open_.files⟩
  · have other : (0 : Nat) ≠ (s.inodes addr).iNo % 256 := by
      have low := typed.low
      omega
    rw [show slot part (s.setVnode addr v).disk 0 = slot part s.disk 0 from stored.step.slot_eq (by decide) other]
    exact ⟨open_.record.1.mono stored.keeps, open_.record.2⟩
  · rw [object]
    split
    · exact ⟨by rw [number]; exact typed.low, fun zero => absurd (number.symm.trans zero) some_, fun _ => stored.refs⟩
    · exact (open_.objects a at_).mono stored.keeps
  · rw [same]
    exact open_.slots i a lt is

/-- A position moves inside its file. -/
theorem PlacesInside.movePos (inside : PlacesInside s) {addr fdPos : Nat} (holds : (s.fileTable g).fdInode = .inode addr)
    (low : fdPos ≤ (s.inodes addr).iSize) : PlacesInside (s.setFile g { s.fileTable g with fdPos := fdPos }) := by
  intro i a lt is
  by_cases e : i = g
  · rw [e, Fs.setFile_self] at is ⊢
    change (s.fileTable g).fdInode = .inode a at is
    rw [holds] at is
    cases is
    exact low
  · rw [Fs.setFile_of_ne _ _ e] at is ⊢
    exact inside i a lt is

/-- No position leaves its file when the file gets longer. -/
theorem PlacesInside.longer (inside : PlacesInside s) {addr : Nat} {v : Vnode} (longer : (s.inodes addr).iSize ≤ v.inode.iSize) :
    PlacesInside (s.setVnode addr v) := by
  intro i a lt is
  have before : (s.fileTable i).fdPos ≤ (s.inodes a).iSize := inside i a lt is
  rw [show (s.setVnode addr v).inodes a = if a = addr then v.inode else s.inodes a from rfl]
  split
  · rename_i here
    rw [here] at before
    exact Nat.le_trans before longer
  · exact before

/-- **`file_write`** keeps the positions, unless it writes nothing to an empty file. -/
theorem fileWrite_places (lay : Layout part n) {buf : Image} (open_ : FilesOpen part n U s) (inside : PlacesInside s)
    (lt : g < maxFileOpen) (proper : ¬ EmptyWrite n s g count) (h : fileWrite part me s g buf count = .ok (r, t)) :
    ∃ U', FilesOpen part n U' t ∧ PlacesInside t := by
  have malloc := LookedUp.malloc open_
  have open1 := open_.lookedUp malloc
  have inside1 := inside.lookedUp open_ malloc
  have malloc1 := LookedUp.malloc open1
  have open2 := open1.lookedUp malloc1
  have inside2 := inside1.lookedUp open1 malloc1
  simp only [fileWrite] at h
  split at h
  · rename_i addr holds
    simp only [bind_ok, defined_ok, exists_const] at h
    obtain ⟨-, h⟩ := h
    split at h
    · rw [pure_ok] at h
      cases h
      exact ⟨U, open_, inside⟩
    split at h
    · rw [pure_ok] at h
      cases h
      exact ⟨U, open1, inside1⟩
    rename_i first
    split at h
    · rw [pure_ok] at h
      cases h
      exact ⟨U, open2, inside2⟩
    rename_i second
    simp only [bind_ok, pure_ok, Prod.exists] at h
    obtain ⟨r', v, fdPos, wrote, h⟩ := h
    cases h
    obtain ⟨mem, some_⟩ := open2.slots g addr lt holds
    obtain ⟨U', stored, moved⟩ := writeFile_uses lay open2.uses ((open2.objects addr (.inl mem)).file some_) wrote
    refine ⟨U', (open2.stored mem some_ stored).movePos g fdPos, (inside2.longer ?_).movePos holds ?_⟩
    · obtain ⟨-, size⟩ | ⟨-, size⟩ := moved
      · exact Nat.le_of_eq size.symm
      · rw [size]
        exact Nat.le_add_right _ _
    · rw [show (s.malloc.malloc.setVnode addr v).inodes addr = v.inode from if_pos rfl]
      have range : v.inode.iSize < 2 ^ 32 := stored.refs.range.iSize
      obtain ⟨pos, size⟩ | ⟨pos, size⟩ := moved
      · rw [pos, size]
        exact inside g addr lt holds
      · by_cases nothing : count = 0 ∧ (s.inodes addr).iSize = 0
        · -- then there is no block for the file
          have stuck : ¬ ((s.inodes addr).sec 0 ≠ 0 ∨ ∃ i, i < n ∧ ¬ s.blockBitmap.Set i) := fun can =>
            proper ⟨nothing.1, ⟨addr, holds, nothing.2, can⟩, by simpa using first, by simpa using second⟩
          simp only [ne_eq, not_or, not_not, not_exists, not_and] at stuck
          rw [(writeFile_noBlock lay wrote open2.uses.map stuck.1 stuck.2).2]
          exact Nat.le_trans (inside g addr lt holds) (by rw [nothing.2]; exact Nat.zero_le _)
        · change fdPos = addU32 (subU32 (s.inodes addr).iSize 1) count at pos
          change v.inode.iSize = (s.inodes addr).iSize + count at size
          rw [pos, size]
          rw [size] at range
          simp only [addU32, subU32]
          omega
  · exact (throw_ok.1 h).elim

/-- The loop of `file_read` moves the position by what it reads, and does not leave the blocks
a file can have. -/
theorem readLoop_pos {disk : Image} {all : Nat → Nat} {size : Nat} : ∀ (fuel : Nat) {done fdPos fdPos' : Nat} {dst dst' : Image},
    readLoop disk all size fuel done fdPos dst = .ok (dst', fdPos') → size - done ≤ fuel →
    fdPos' = fdPos + (size - done) ∧ (done < size → fdPos + (size - done) ≤ 512 * 140) := by
  intro fuel
  induction fuel with
  | zero =>
    intro done fdPos fdPos' dst dst' h le
    simp only [readLoop, pure_ok] at h
    cases h
    exact ⟨by omega, fun more => by omega⟩
  | succ fuel ih =>
    intro done fdPos fdPos' dst dst' h le
    simp only [readLoop] at h
    split at h
    · simp only [bind_ok, defined_ok, exists_const] at h
      obtain ⟨inside, buf, -, h⟩ := h
      obtain ⟨chunk, isChunk⟩ : ∃ chunk, chunk = if size - done < 512 - fdPos % 512 then size - done else 512 - fdPos % 512 := ⟨_, rfl⟩
      rw [← isChunk] at h
      have bounds : 0 < chunk ∧ chunk ≤ size - done ∧ fdPos + chunk ≤ 512 * 140 := by
        rw [isChunk]
        split <;> refine ⟨?_, ?_, ?_⟩ <;> omega
      have sum : addU32 fdPos chunk = fdPos + chunk := addU32_of_lt (by omega)
      rw [sum] at h
      obtain ⟨pos, most⟩ := ih h (by omega)
      refine ⟨by omega, fun _ => ?_⟩
      by_cases last : done + chunk < size
      · have := most last
        omega
      · omega
    · rw [pure_ok] at h
      cases h
      exact ⟨by omega, fun more => by omega⟩

/-- **`file_read`** after its checks leaves the position in the file. -/
theorem readFile_pos {disk : Image} {ino : Inode} {fdPos fdPos' : Nat} {dst dst' : Image} (range : ino.iSize < 2 ^ 32)
    (inside : fdPos ≤ ino.iSize) (h : readFile disk ino fdPos dst count = .ok (r, dst', fdPos')) : fdPos' ≤ ino.iSize := by
  obtain ⟨size, isSize⟩ : ∃ size, size = if ino.iSize < addU32 fdPos count then subU32 ino.iSize fdPos else count := ⟨_, rfl⟩
  simp only [readFile, ← isSize] at h
  split at h
  · rw [pure_ok] at h
    cases h
    exact inside
  simp only [bind_ok, assertThat_ok, pure_ok, Prod.exists, exists_const] at h
  obtain ⟨-, all, -, dst₁, pos₁, loop, h⟩ := h
  cases h
  obtain ⟨pos, most⟩ := readLoop_pos _ loop (Nat.le_of_eq (Nat.sub_zero _))
  rw [pos]
  by_cases past : ino.iSize < addU32 fdPos count
  · rw [if_pos past, subU32_of_le inside range] at isSize
    omega
  · rw [if_neg past] at isSize
    simp only [addU32] at past
    omega

theorem fileRead_places {dst dst' : Image} (open_ : FilesOpen part n U s) (inside : PlacesInside s) (lt : g < maxFileOpen)
    (h : fileRead me s g dst count = .ok (r, dst', t)) : FilesOpen part n U t ∧ PlacesInside t := by
  have malloc := LookedUp.malloc open_
  have open1 := open_.lookedUp malloc
  have inside1 := inside.lookedUp open_ malloc
  have malloc1 := LookedUp.malloc open1
  have open2 := open1.lookedUp malloc1
  have inside2 := inside1.lookedUp open1 malloc1
  simp only [fileRead] at h
  split at h
  · rename_i addr holds
    simp only [bind_ok, defined_ok, exists_const] at h
    obtain ⟨-, h⟩ := h
    split at h
    · rw [pure_ok] at h
      cases h
      exact ⟨open_, inside⟩
    split at h
    · rw [pure_ok] at h
      cases h
      exact ⟨open2, inside2⟩
    simp only [bind_ok, defined_ok, pure_ok, Prod.exists, exists_const] at h
    obtain ⟨-, r', dst₁, fdPos, read, h⟩ := h
    cases h
    obtain ⟨mem, some_⟩ := open_.slots g addr lt holds
    have range := ((open_.objects addr (.inl mem)).file some_).range.iSize
    have low := readFile_pos range (inside g addr lt holds) read
    exact ⟨open2.movePos g fdPos, inside2.movePos holds low⟩
  · exact (throw_ok.1 h).elim

/-- A write of nothing to an empty file sets `fd_pos` to the largest word. -/
theorem fileWrite_empty (lay : Layout part n) {buf : Image} (open_ : FilesOpen part n U s) (lt : g < maxFileOpen)
    (empty : EmptyWrite n s g count) (h : fileWrite part me s g buf count = .ok (r, t)) : ¬ PlacesInside t := by
  obtain ⟨rfl, ⟨addr, holds, size, can⟩, first, second⟩ := empty
  intro inside
  simp only [fileWrite, holds, bind_ok, defined_ok, exists_const] at h
  obtain ⟨-, h⟩ := h
  rw [if_neg (by rw [size]; decide), if_neg (by rw [first]; decide), if_neg (by rw [second]; decide)] at h
  simp only [bind_ok, pure_ok, Prod.exists] at h
  obtain ⟨r', v, fdPos, wrote, h⟩ := h
  cases h
  have place := inside g addr lt (by rw [Fs.setFile_self])
  rw [Fs.setFile_self] at place
  change fdPos ≤ (if addr = addr then v.inode else s.inodes addr).iSize at place
  rw [if_pos rfl] at place
  -- the file has a block, so the loop is reached and does nothing
  simp only [writeFile, bind_ok, Prod.exists] at wrote
  obtain ⟨ok, w, block, wrote⟩ := wrote
  have got : ok = true ∧ w.inode.iSize = 0 := by
    simp only [firstBlock] at block
    split at block
    · rename_i none
      split at block
      · rename_i b alloc
        obtain ⟨-, -, full⟩ | ⟨i, -, -, -, -, some_, -⟩ := blockBitmapAlloc_cases lay open_.uses.map alloc
        · obtain has | ⟨i, inside, clear⟩ := can
          · exact absurd none has
          · exact absurd (full i inside) clear
        · cases some_
      · simp only [bind_ok, assertThat_ok, pure_ok, exists_const] at block
        obtain ⟨-, disk, -, block⟩ := block
        cases block
        exact ⟨rfl, size⟩
    · rw [pure_ok] at block
      cases block
      exact ⟨rfl, size⟩
  obtain ⟨rfl, empty⟩ := got
  have same : addU32 w.inode.iSize 0 / 512 + 1 = w.inode.iSize / 512 + 1 := by
    rw [empty]
    rfl
  simp only [Bool.true_eq_false, if_false, same, if_true, bind_ok, assertThat_ok, exists_const] at wrote
  obtain ⟨-, gr, collected, wrote⟩ := wrote
  rw [empty, sameBlocks, if_pos (by decide), pure_ok] at collected
  cases collected
  simp only [Bool.true_eq_false, if_false, writeLoop, pure_bind, bind_ok, pure_ok] at wrote
  obtain ⟨disk, -, wrote⟩ := wrote
  cases wrote
  change subU32 w.inode.iSize 1 ≤ w.inode.iSize at place
  rw [empty] at place
  revert place
  decide

end Transfer

/-- A call on open files, with what the keyboard's buffer holds when it is made. -/
inductive FileCall
  | open (pathname : List Byte) (flags : Nat)
  | read (kbdBuf : Ioqueue) (fd : Int) (buf : Option Image) (count : Nat)
  | write (fd : Int) (buf : Image) (count : Nat)
  | lseek (fd offset : Int) (whence : Nat)

/-- What a call does to the system. -/
def fileCall (part : Partition) (pid : Nat) (σ : Sys) : FileCall → Exec Sys
  | .open pathname flags => do
    let (_, σ) ← sysOpen part pid σ pathname flags
    return σ
  | .read kbdBuf fd buf count => do
    let (_, _, _, σ) ← sysRead pid σ kbdBuf fd buf count
    return σ
  | .write fd buf count => do
    let (_, σ) ← sysWrite part pid σ fd buf count
    return σ
  | .lseek fd offset whence => do
    let (_, σ) ← sysLseek pid σ fd offset whence
    return σ

/-- The call comes to `file_write` and writes nothing to an empty file. -/
def WritesNothing (n : Nat) (σ : Sys) (pid : Nat) : FileCall → Prop
  | .write fd _ count => 0 ≤ fd ∧ fd ≠ 1 ∧ ForWrite (σ.fs.fileTable (slotOf σ pid fd)).fdFlag ∧
      EmptyWrite n σ.fs (slotOf σ pid fd) count
  | _ => False

/-- A task makes a call other than a write of nothing to an empty file. -/
def FileStep (part : Partition) (n : Nat) (σ σ' : Sys) : Prop :=
  ∃ pid call, ¬ WritesNothing n σ pid call ∧ fileCall part pid σ call = .ok σ'

/-- Tasks make calls, one after another. -/
def fileCalls (part : Partition) : List (Nat × FileCall) → Sys → Exec Sys
  | [], σ => return σ
  | (pid, call) :: rest, σ => do
    let σ' ← fileCall part pid σ call
    fileCalls part rest σ'

/-- The calls on the small partition just formatted. -/
def freshFileCalls (secCnt : Nat) (calls : List (Nat × FileCall)) : Exec (Partition × Fs × Sys) := do
  let (part, s) ← formatAndMount (fun _ => 0#8) 1 secCnt
  let σ ← fileCalls part calls (bootSys s)
  return (part, s, σ)

section Calls

variable {part : Partition} {n pid count : Nat} {U : Nat → BlockUse} {σ σ' : Sys} {r : Int} {fd : Int}

/-- Calls none of which writes nothing are steps of a run. -/
theorem fileCalls_run :
    ∀ calls σ, (∀ pid fd buf, (pid, FileCall.write fd buf 0) ∉ calls) → fileCalls part calls σ = .ok σ' →
      Relation.ReflTransGen (FileStep part n) σ σ' := by
  intro calls
  induction calls with
  | nil =>
    intro σ _ h
    rw [fileCalls, pure_ok] at h
    rw [h]
  | cons first rest ih =>
    intro σ writes h
    obtain ⟨pid, call⟩ := first
    simp only [fileCalls, bind_ok] at h
    obtain ⟨σ₁, made, h⟩ := h
    have proper : ¬ WritesNothing n σ pid call := by
      intro nothing
      cases call with
      | write fd buf count =>
        obtain ⟨-, -, -, empty⟩ := nothing
        rw [empty.none] at writes
        exact writes pid fd buf (List.mem_cons_self ..)
      | _ => exact nothing
    exact .head ⟨pid, call, proper, made⟩ (ih σ₁ (fun pid fd buf mem => writes pid fd buf (List.mem_cons_of_mem _ mem)) h)

theorem isPipe_of_files {g : Nat} (open_ : FilesOpen part n U σ.fs) : isPipe σ.fs g = false :=
  beq_eq_false_iff_ne.2 (open_.files g)

theorem bmod_le_self (x m : Nat) : (x : Int).bmod m ≤ x := by
  have rem : (x : Int) % (m : Int) ≤ x := Int.ofNat_le.2 (Nat.mod_le x m)
  rw [Int.bmod_eq_emod]
  split <;> omega

theorem int32_le (x : Nat) : int32 x ≤ x := bmod_le_self x _

/-- **`sys_lseek`** moves the position of a slot inside its file. -/
theorem sysLseek_places {offset : Int} {whence : Nat} (open_ : FilesOpen part n U σ.fs) (inside : PlacesInside σ.fs)
    (h : sysLseek pid σ fd offset whence = .ok (r, σ')) : FilesOpen part n U σ'.fs ∧ PlacesInside σ'.fs := by
  rw [sysLseek] at h
  split at h
  · rw [pure_ok] at h
    cases h
    exact ⟨open_, inside⟩
  simp only [bind_ok, assertThat_ok, exists_const] at h
  obtain ⟨-, g, entry, h⟩ := h
  have lt := (fdLocal2Global_ok entry).2.1
  split at h
  · rename_i addr holds
    simp only [bind_ok, defined_ok, exists_const] at h
    obtain ⟨newPos, isPos⟩ : ∃ p, p = if whence = 1 then offset else if whence = 2 then
      int32 (σ.fs.fileTable g).fdPos + offset else int32 (σ.fs.inodes addr).iSize + offset := ⟨_, rfl⟩
    rw [← isPos] at h
    obtain ⟨-, -, h⟩ := h
    split at h
    · rw [pure_ok] at h
      cases h
      exact ⟨open_, inside⟩
    · rename_i proper
      rw [pure_ok] at h
      cases h
      have le := int32_le (σ.fs.inodes addr).iSize
      exact ⟨open_.movePos g _, inside.movePos holds (by omega)⟩
  · exact (throw_ok.1 h).elim

/-- **`sys_read`** of a file, or of the keyboard. -/
theorem sysRead_places {kbdBuf kbdBuf' : Ioqueue} {buf : Option Image} {dst : Image} (open_ : FilesOpen part n U σ.fs)
    (inside : PlacesInside σ.fs) (h : sysRead pid σ kbdBuf fd buf count = .ok (r, dst, kbdBuf', σ')) :
    FilesOpen part n U σ'.fs ∧ PlacesInside σ'.fs := by
  simp only [sysRead] at h
  split at h
  · exact (throw_ok.1 h).elim
  split at h
  · rw [pure_ok] at h
    cases h
    exact ⟨open_, inside⟩
  simp only [bind_ok] at h
  obtain ⟨g, entry, h⟩ := h
  have lt := (fdLocal2Global_ok entry).2.1
  rw [isPipe_of_files open_, if_neg Bool.false_ne_true] at h
  split at h
  · simp only [bind_ok, pure_ok, Prod.exists] at h
    obtain ⟨bytes, kbd, -, h⟩ := h
    cases h
    exact ⟨open_, inside⟩
  · simp only [bind_ok, pure_ok, Prod.exists] at h
    obtain ⟨r', dst', t, read, h⟩ := h
    cases h
    exact fileRead_places open_ inside lt read

/-- **`sys_open`.** -/
theorem sysOpen_places (lay : Layout part n) {pathname : List Byte} {flags : Nat} (open_ : FilesOpen part n U σ.fs)
    (inside : PlacesInside σ.fs) (h : sysOpen part pid σ pathname flags = .ok (r, σ')) :
    ∃ U', FilesOpen part n U' σ'.fs ∧ PlacesInside σ'.fs := by
  simp only [sysOpen, bind_ok, pure_ok, Prod.exists] at h
  obtain ⟨fd, t, table, opened, h⟩ := h
  cases h
  exact openPath_places lay open_ inside opened

/-- **`sys_write`** comes to `file_write`, or leaves the files and their slots alone. -/
theorem sysWrite_cases {buf : Image} (open_ : FilesOpen part n U σ.fs) (h : sysWrite part pid σ fd buf count = .ok (r, σ')) :
    σ'.fs = σ.fs ∧ ¬ WritesNothing n σ pid (.write fd buf count) ∨
      ∃ res, slotOf σ pid fd < maxFileOpen ∧ (0 ≤ fd ∧ fd ≠ 1 ∧ ForWrite (σ.fs.fileTable (slotOf σ pid fd)).fdFlag) ∧
        fileWrite part (σ.heapOf pid) σ.fs (slotOf σ pid fd) buf count = .ok (res, σ'.fs) := by
  simp only [sysWrite] at h
  split at h
  · rename_i neg
    rw [pure_ok] at h
    cases h
    exact .inl ⟨rfl, fun nothing => by have := nothing.1; omega⟩
  rename_i pos
  simp only [bind_ok] at h
  obtain ⟨g, entry, h⟩ := h
  obtain ⟨-, names, is⟩ := fdLocal2Global_iff.1 entry
  have here : slotOf σ pid fd = g := is
  rw [isPipe_of_files open_, if_neg Bool.false_ne_true] at h
  split at h
  · rename_i screen
    simp only [consoleWrite, bind_ok, defined_ok, pure_ok, exists_const] at h
    obtain ⟨-, h⟩ := h
    cases h
    exact .inl ⟨rfl, fun nothing => nothing.2.1 screen⟩
  rename_i notScreen
  rw [here]
  simp only [sysWriteFile] at h
  split at h
  · rename_i writes
    simp only [bind_ok, pure_ok, Prod.exists] at h
    obtain ⟨res, t, wrote, h⟩ := h
    cases h
    exact .inr ⟨res, (fdLocal2Global_ok entry).2.1, ⟨by omega, notScreen, writes⟩, wrote⟩
  · rename_i reads
    rw [pure_ok] at h
    cases h
    exact .inl ⟨rfl, fun nothing => reads (here ▸ nothing.2.2.1)⟩

/-- A call keeps the positions exactly if it does not write nothing to an empty file. -/
theorem fileCall_places (lay : Layout part n) {call : FileCall} (open_ : FilesOpen part n U σ.fs) (inside : PlacesInside σ.fs)
    (h : fileCall part pid σ call = .ok σ') :
    (¬ WritesNothing n σ pid call → ∃ U', FilesOpen part n U' σ'.fs ∧ PlacesInside σ'.fs) ∧
      (WritesNothing n σ pid call → ¬ PlacesInside σ'.fs) := by
  cases call with
  | «open» pathname flags =>
    simp only [fileCall, bind_ok, pure_ok, Prod.exists] at h
    obtain ⟨r, σ₁, opened, rfl⟩ := h
    exact ⟨fun _ => sysOpen_places lay open_ inside opened, fun nothing => nothing.elim⟩
  | read kbdBuf fd buf count =>
    simp only [fileCall, bind_ok, pure_ok, Prod.exists] at h
    obtain ⟨r, dst, kbd, σ₁, read, rfl⟩ := h
    exact ⟨fun _ => ⟨U, sysRead_places open_ inside read⟩, fun nothing => nothing.elim⟩
  | write fd buf count =>
    simp only [fileCall, bind_ok, pure_ok, Prod.exists] at h
    obtain ⟨r, σ₁, wrote, rfl⟩ := h
    obtain ⟨same, proper⟩ | ⟨res, lt, writes, wrote⟩ := sysWrite_cases open_ wrote
    · rw [same]
      exact ⟨fun _ => ⟨U, open_, inside⟩, fun nothing => absurd nothing proper⟩
    · refine ⟨fun proper => ?_, fun nothing => fileWrite_empty lay open_ lt nothing.2.2.2 wrote⟩
      exact fileWrite_places lay open_ inside lt (fun empty => proper ⟨writes.1, writes.2.1, writes.2.2, empty⟩) wrote
  | lseek fd offset whence =>
    simp only [fileCall, bind_ok, pure_ok, Prod.exists] at h
    obtain ⟨r, σ₁, sought, rfl⟩ := h
    exact ⟨fun _ => ⟨U, sysLseek_places open_ inside sought⟩, fun nothing => nothing.elim⟩

end Calls

section Runs

variable {part : Partition} {n startLba secCnt sects : Nat} {disk : Image} {s : Fs} {σ σ' : Sys}

/-- The uses of the blocks of a partition just formatted. -/
def freshUses (part : Partition) : Nat → BlockUse := Function.update (fun _ => .other) part.sb.dataStartLba (.data .dir)

/-- No file is open on a partition just formatted. -/
theorem Formatted.filesOpen (lay : Layout part n) (fresh : Formatted part n disk) :
    FilesOpen part n (freshUses part) { (mountedFs part disk).load part 0 with rootDir := 0 } := by
  obtain ⟨same, -⟩ := fresh.rootSlot lay
  have new := fresh.newDir lay
  have map := fresh.blockMap lay
  have blocks := lay.blocks
  have first : (slot part disk 0).sec 0 = part.sb.dataStartLba := same.sec 0
  have only : ∀ lba, freshUses part lba ≠ .other → lba = part.sb.dataStartLba := by
    intro lba used
    by_contra ne
    exact used (Function.update_of_ne ne ..)
  have start : freshUses part part.sb.dataStartLba = .data .dir := Function.update_self ..
  have refs : RefersAs (freshUses part) .dir (slot part disk 0) := by
    refine ⟨(new.wf lay).1.range, fun j _ has => ?_, fun has => absurd (new.rest 12 (by decide)) has⟩
    have zero : j = 0 := by
      by_contra ne
      exact has (new.rest j (Nat.pos_of_ne_zero ne))
    rw [zero, first]
    exact start
  have typed : TypedObject (freshUses part) { slot part disk 0 with iOpenCnts := 1 } :=
    ⟨same.iNo ▸ (by decide : (0 : Nat) < 256), fun _ => refs.flags 1 _, fun some_ => absurd same.iNo some_⟩
  refine ⟨⟨map, fun lba used => ?_, fun k t is => ?_, fun lba is j lt => ?_⟩, ?_, fun m lt set => .inl ((fresh.inodeBits lt).1 set),
    (fresh.inodeBits (by decide)).2 rfl, ⟨refs, same.iNo⟩, fun a mem => ?_, ⟨Nat.one_pos, same.iNo⟩, fun a at_ => ?_,
    fun g a _ is => ?_, fun g => ?_⟩
  · rw [only lba used]
    exact ⟨0, by omega, rfl, map.root⟩
  · have at_ := only t (by rw [is]; rintro ⟨⟩)
    rw [at_, start] at is
    cases is
  · rw [only lba (by rw [is]; rintro ⟨⟩)]
    obtain ⟨dotEntry, dotDotEntry, dead⟩ := new.entries
    have ref : blockRef disk (slot part disk 0) 0 = part.sb.dataStartLba := (blockRef_direct (by decide)).trans first
    simp only [entryAt, nodeAt, ref] at dotEntry dotDotEntry dead
    show RootEntry _ (decodeDirent disk (512 * part.sb.dataStartLba) j)
    obtain rfl | rfl | past : j = 0 ∨ j = 1 ∨ 1 < j := by omega
    · rw [dotEntry]
      exact ⟨fun _ => rfl, by rintro ⟨⟩⟩
    · rw [dotDotEntry]
      exact ⟨fun _ => rfl, by rintro ⟨⟩⟩
    · have unknown := (dead j past lt).1
      refine ⟨fun dir => ?_, fun file => ?_⟩
      · rw [unknown] at dir
        cases dir
      · rw [unknown] at file
        cases file
  · show part.sb.inodeBitmapSects * 512 = 512
    rw [lay.inodeBitmapSects]
  · rw [show a = 0 from List.mem_singleton.1 mem]
    exact Nat.one_pos
  · rw [show a = 0 from at_.elim List.mem_singleton.1 id]
    exact typed
  · cases is
  · exact (by decide : 0 ≠ pipeFlag)

/-- **Positions stay in their files.** On a partition just formatted, whatever `sys_malloc`
answers, in every run of `sys_open`, `sys_read`, `sys_write` and `sys_lseek` without a write of
nothing to an empty file every occupied slot has its position in its file; and the next call
leaves that so exactly if it is no such write. -/
theorem places_inside (lt : secCnt < 2 ^ 32) (sizes : formatSizes secCnt = .ok (sects, n)) (blocks : 8 ≤ n)
    (formatted : formatAndMount disk startLba secCnt = .ok (part, s)) (mallocs : List Bool)
    (run : Relation.ReflTransGen (FileStep part n) (bootSys { s with mallocs := mallocs }) σ) :
    PlacesInside σ.fs ∧ ∀ pid call σ', fileCall part pid σ call = .ok σ' → (PlacesInside σ'.fs ↔ ¬ WritesNothing n σ pid call) := by
  obtain ⟨lay, disk', fresh, isFs⟩ := formatAndMount_ok lt sizes blocks formatted
  have open0 : FilesOpen part n (freshUses part) s := isFs ▸ fresh.filesOpen lay
  have inside0 : PlacesInside s := by
    intro g a _ is
    rw [formatAndMount_fileTable formatted] at is
    cases is
  have reached : ∃ U, FilesOpen part n U σ.fs ∧ PlacesInside σ.fs := by
    induction run with
    | refl => exact ⟨_, open0.lookedUp (.heap open0 mallocs), inside0.lookedUp open0 (.heap open0 mallocs)⟩
    | tail _ step ih =>
      obtain ⟨U, open_, inside⟩ := ih
      obtain ⟨pid, call, proper, ran⟩ := step
      exact (fileCall_places lay open_ inside ran).1 proper
  obtain ⟨U, open_, inside⟩ := reached
  refine ⟨inside, fun pid call σ' ran => ?_⟩
  obtain ⟨keeps, breaks⟩ := fileCall_places lay open_ inside ran
  constructor
  · intro inside' nothing
    exact breaks nothing inside'
  · intro proper
    obtain ⟨-, -, inside'⟩ := keeps proper
    exact inside'

/-- `init` and the main thread write and read a file through two slots. -/
def sharedFile : List (Nat × FileCall) :=
  [(2, .open pathF (oCreat ||| oRdwr)), (2, .write 3 (fun _ => 7#8) 5), (1, .open pathF 0), (2, .lseek 3 (-2) 3),
    (1, .read ioqueueInit 3 (some fun _ => 0#8) 4)]

theorem places_inside_shared :
    ∃ part s σ, formatSizes 620 = .ok (1, 8) ∧ formatAndMount (fun _ => 0#8) 1 620 = .ok (part, s) ∧
      Relation.ReflTransGen (FileStep part 8) (bootSys { s with mallocs := s.mallocs }) σ ∧
      (σ.fs.fileTable 3).fdPos = 3 ∧ (σ.fs.fileTable 4).fdPos = 4 ∧ PlacesInside σ.fs := by
  have ran : returns (freshFileCalls 620 sharedFile)
      (fun x => decide ((x.2.2.fs.fileTable 3).fdPos = 3) && decide ((x.2.2.fs.fileTable 4).fdPos = 4)) = true := by
    decide
  obtain ⟨⟨part, s, σ⟩, ran, found⟩ := returns_true.1 ran
  simp only [freshFileCalls, bind_ok, pure_ok, Prod.exists] at ran
  obtain ⟨part, s, formatted, σ, ran, h⟩ := ran
  cases h
  simp only [Bool.and_eq_true, decide_eq_true_eq] at found
  have run : Relation.ReflTransGen (FileStep part 8) (bootSys { s with mallocs := s.mallocs }) σ :=
    fileCalls_run _ _ (by intro pid fd buf mem; simp [sharedFile] at mem) ran
  exact ⟨part, s, σ, rfl, formatted, run, found.1, found.2,
    (places_inside (by decide) rfl (by decide) formatted s.mallocs run).1⟩

/-- Writing nothing to a new file leaves `fd_pos` at the largest word, past `i_size`. -/
theorem emptyWrite_outside :
    ¬ ∀ (disk : Image) (startLba secCnt sects n : Nat) (part : Partition) (s : Fs) (σ : Sys), secCnt < 2 ^ 32 →
      formatSizes secCnt = .ok (sects, n) → 8 ≤ n → formatAndMount disk startLba secCnt = .ok (part, s) →
      Relation.ReflTransGen (fun σ σ' => ∃ pid call, fileCall part pid σ call = .ok σ') (bootSys s) σ → PlacesInside σ.fs := by
  intro claim
  have ran : returns (freshFileCalls 620 [(2, .open pathF (oCreat ||| oRdwr)), (2, .write 3 (fun _ => 0#8) 0)])
      (fun x => decide ((x.2.2.fs.fileTable 3).fdInode = .inode 1) && decide ((x.2.2.fs.fileTable 3).fdPos = 0xffffffff) &&
        decide ((x.2.2.fs.inodes 1).iSize = 0)) = true := by
    decide
  obtain ⟨⟨part, s, σ⟩, ran, found⟩ := returns_true.1 ran
  simp only [freshFileCalls, fileCalls, bind_ok, pure_ok, Prod.exists] at ran
  obtain ⟨part, s, formatted, σ, ⟨σ₁, opened, σ₂, wrote, rfl⟩, h⟩ := ran
  cases h
  simp only [Bool.and_eq_true, decide_eq_true_eq] at found
  obtain ⟨⟨file, pos⟩, size⟩ := found
  have inside := claim (fun _ => 0#8) 1 620 1 8 part s σ (by decide) rfl (by decide) formatted
    ((Relation.ReflTransGen.single ⟨2, _, opened⟩).tail ⟨2, _, wrote⟩) 3 1 (by decide) file
  rw [pos, size] at inside
  exact absurd inside (by decide)

end Runs

end Sparrow
