import Sparrow.Fs.Regions
import Sparrow.Userprog.Descriptors
import Sparrow.Userprog.SharedInodes

/-!
# One writer at a time

`write_deny` of an open inode is meant to be set while one slot of the file table has it
open for writing, and to keep a second writer out. `file_open` sets it, `file_create` does
not, and `file_close` clears it whichever slot is closed.

`SingleWriter` is kept by every open that does not create a file for writing and every
close that does not close a reader beside a writer.
-/

namespace Sparrow
set_option autoImplicit false

/-- Slot `g` is occupied and has the inode at `a` open for writing. -/
def WriterSlot (s : Fs) (g a : Nat) : Prop :=
  g < maxFileOpen ∧ (s.fileTable g).fdInode = .inode a ∧ ForWrite (s.fileTable g).fdFlag

/-- An inode has at most one writer, and `write_deny` tells whether there is one. -/
structure SingleWriter (s : Fs) : Prop where
  single : ∀ a g g', WriterSlot s g a → WriterSlot s g' a → g = g'
  deny : ∀ a, (s.inodes a).writeDeny = true ↔ ∃ g, WriterSlot s g a

/-- The writers, and what loading an inode relies on. -/
structure WriterInv (part : Partition) (n : Nat) (s : Fs) : Prop where
  writers : SingleWriter s
  slots : ∀ g a, (s.fileTable g).fdInode = .inode a → a < s.nextAddr
  cached : ∀ a ∈ s.openInodes, a < s.nextAddr
  files : ∀ g, (s.fileTable g).fdFlag ≠ pipeFlag
  len : s.inodeBitmap.btmpBytesLen = 512
  disk : ∃ T, DiskSound part n s.disk s.blockBitmap T ∧ ∀ a, Refers part n s.blockBitmap T (s.inodes a)

section Calls

variable {part : Partition} {n : Nat} {me : Option Nat} {s t : Fs}

theorem SingleWriter.of_writes (one : SingleWriter s) (same : ∀ g a, WriterSlot t g a ↔ WriterSlot s g a)
    (deny : ∀ a, (t.inodes a).writeDeny = (s.inodes a).writeDeny) : SingleWriter t := by
  constructor
  · intro a g g' writes writes'
    exact one.single a g g' ((same g a).1 writes) ((same g' a).1 writes')
  · intro a
    rw [deny, one.deny]
    exact exists_congr fun g => (same g a).symm

theorem SingleWriter.congr (one : SingleWriter s) (files : t.fileTable = s.fileTable)
    (deny : ∀ a, (t.inodes a).writeDeny = (s.inodes a).writeDeny) : SingleWriter t :=
  one.of_writes (fun g a => by simp only [WriterSlot, files]) deny

/-- A slot that had no writer gets none. -/
theorem SingleWriter.setFile (one : SingleWriter s) {g : Nat} {file : File} (before : ∀ a, ¬ WriterSlot s g a)
    (after : file.fdInode = .null ∨ ¬ ForWrite file.fdFlag) : SingleWriter (s.setFile g file) := by
  refine one.of_writes (fun g' a => ?_) fun _ => rfl
  by_cases e : g' = g
  · subst e
    refine iff_of_false ?_ (before a)
    rintro ⟨-, holds, writes⟩
    simp only [Fs.setFile, if_true] at holds writes
    rcases after with null | reads
    · rw [null] at holds
      cases holds
    · exact reads writes
  · simp only [WriterSlot, Fs.setFile, e, if_false]

/-- A slot in use by nobody becomes the writer of an inode that has none. -/
theorem SingleWriter.write (one : SingleWriter s) {g addr pos flag : Nat} {ino : Inode} (lt : g < maxFileOpen)
    (before : ∀ a, ¬ WriterSlot s g a) (writes : ForWrite flag) (clear : (s.inodes addr).writeDeny = false)
    (deny : ino.writeDeny = true) : SingleWriter ((s.setFile g ⟨pos, flag, .inode addr⟩).setInode addr ino) := by
  have mine : ∀ a, WriterSlot ((s.setFile g ⟨pos, flag, .inode addr⟩).setInode addr ino) g a ↔ a = addr := by
    intro a
    simp only [WriterSlot, Fs.setInode, Fs.setFile, if_true]
    constructor
    · rintro ⟨-, holds, -⟩
      cases holds
      rfl
    · rintro rfl
      exact ⟨lt, rfl, writes⟩
  have others : ∀ g' a, g' ≠ g → (WriterSlot ((s.setFile g ⟨pos, flag, .inode addr⟩).setInode addr ino) g' a ↔ WriterSlot s g' a) := by
    intro g' a ne
    simp only [WriterSlot, Fs.setInode, Fs.setFile, ne, if_false]
  have none : ∀ g', ¬ WriterSlot s g' addr := fun g' h => by
    have := (one.deny addr).2 ⟨g', h⟩
    rw [clear] at this
    cases this
  constructor
  · intro a g₁ g₂ h₁ h₂
    by_cases e₁ : g₁ = g
    · by_cases e₂ : g₂ = g
      · rw [e₁, e₂]
      · rw [e₁, mine] at h₁
        rw [others _ _ e₂, h₁] at h₂
        exact absurd h₂ (none g₂)
    · rw [others _ _ e₁] at h₁
      by_cases e₂ : g₂ = g
      · rw [e₂, mine] at h₂
        rw [h₂] at h₁
        exact absurd h₁ (none g₁)
      · rw [others _ _ e₂] at h₂
        exact one.single a g₁ g₂ h₁ h₂
  · intro a
    by_cases e : a = addr
    · subst e
      refine iff_of_true ?_ ⟨g, (mine a).2 rfl⟩
      simp only [Fs.setInode, if_true]
      exact deny
    · simp only [Fs.setInode, e, if_false]
      show (s.inodes a).writeDeny = true ↔ _
      rw [one.deny]
      refine exists_congr fun g' => ?_
      by_cases eg : g' = g
      · subst eg
        exact iff_of_false (before a) fun h => e ((mine a).1 h)
      · exact (others g' a eg).symm

/-- The writer goes, or a reader of an inode without writer. -/
theorem SingleWriter.close (one : SingleWriter s) {g addr : Nat} (ino : Inode) (file : File) (lt : g < maxFileOpen)
    (holds : (s.fileTable g).fdInode = .inode addr) (proper : ForWrite (s.fileTable g).fdFlag ∨ ∀ g', ¬ WriterSlot s g' addr)
    (clear : ino.writeDeny = false) (null : file.fdInode = .null) : SingleWriter ((s.setInode addr ino).setFile g file) := by
  have mine : ∀ a, ¬ WriterSlot ((s.setInode addr ino).setFile g file) g a := by
    rintro a ⟨-, h, -⟩
    simp only [Fs.setFile, if_true] at h
    rw [null] at h
    cases h
  have others : ∀ g' a, g' ≠ g → (WriterSlot ((s.setInode addr ino).setFile g file) g' a ↔ WriterSlot s g' a) := by
    intro g' a ne
    simp only [WriterSlot, Fs.setInode, Fs.setFile, ne, if_false]
  have none : ∀ g', g' ≠ g → ¬ WriterSlot s g' addr := by
    intro g' ne h
    rcases proper with writes | nobody
    · exact ne (one.single addr g' g h ⟨lt, holds, writes⟩)
    · exact nobody g' h
  constructor
  · intro a g₁ g₂ h₁ h₂
    have ne₁ : g₁ ≠ g := fun e => mine a (e ▸ h₁)
    have ne₂ : g₂ ≠ g := fun e => mine a (e ▸ h₂)
    exact one.single a g₁ g₂ ((others g₁ a ne₁).1 h₁) ((others g₂ a ne₂).1 h₂)
  · intro a
    by_cases e : a = addr
    · subst e
      refine iff_of_false ?_ ?_
      · simp only [Fs.setFile, Fs.setInode, if_true, clear]
        exact Bool.false_ne_true
      · rintro ⟨g', h⟩
        have ne : g' ≠ g := fun e => mine a (e ▸ h)
        exact none g' ne ((others g' a ne).1 h)
    · simp only [Fs.setFile, Fs.setInode, e, if_false]
      show (s.inodes a).writeDeny = true ↔ _
      rw [one.deny]
      refine exists_congr fun g' => ?_
      by_cases eg : g' = g
      · subst eg
        refine iff_of_false ?_ (mine a)
        rintro ⟨-, h, -⟩
        rw [holds] at h
        cases h
        exact e rfl
      · exact (others g' a eg).symm

/-- No slot has the inode that is allocated next. -/
theorem WriterInv.next_clear (inv : WriterInv part n s) : (s.inodes s.nextAddr).writeDeny = false := by
  rw [← Bool.not_eq_true, inv.writers.deny]
  rintro ⟨g, -, file, -⟩
  exact Nat.lt_irrefl _ (inv.slots g _ file)

/-- The heap, the inode bitmap and the owners of the objects do not matter. -/
theorem WriterInv.same (inv : WriterInv part n s) (files : t.fileTable = s.fileTable) (inodes : t.inodes = s.inodes)
    (next : t.nextAddr = s.nextAddr) (list : t.openInodes = s.openInodes)
    (len : t.inodeBitmap.btmpBytesLen = s.inodeBitmap.btmpBytesLen) (disk : t.disk = s.disk)
    (bits : t.blockBitmap = s.blockBitmap) : WriterInv part n t := by
  refine ⟨inv.writers.congr files fun a => by rw [inodes], ?_, ?_, ?_, len.trans inv.len, ?_⟩
  · rw [files, next]
    exact inv.slots
  · rw [list, next]
    exact inv.cached
  · rw [files]
    exact inv.files
  · rw [disk, bits, inodes]
    exact inv.disk

/-- Only counts of handles changed. -/
theorem WriterInv.recount (inv : WriterInv part n s) {addr cnt : Nat} (files : t.fileTable = s.fileTable)
    (next : t.nextAddr = s.nextAddr) (list : ∀ a ∈ t.openInodes, a ∈ s.openInodes) (len : t.inodeBitmap = s.inodeBitmap)
    (disk : t.disk = s.disk) (bits : t.blockBitmap = s.blockBitmap)
    (inodes : t.inodes = fun a => if a = addr then { s.inodes addr with iOpenCnts := cnt } else s.inodes a) :
    WriterInv part n t := by
  have object : ∀ a, (t.inodes a).writeDeny = (s.inodes a).writeDeny ∧ SameStored (t.inodes a) (s.inodes a) := by
    intro a
    rw [inodes]
    dsimp only
    split
    · rename_i e
      rw [e]
      exact ⟨rfl, rfl, rfl, rfl⟩
    · exact ⟨rfl, .refl _⟩
  obtain ⟨T, sound, refs⟩ := inv.disk
  refine ⟨inv.writers.congr files fun a => (object a).1, ?_, ?_, by rw [files]; exact inv.files, by rw [len]; exact inv.len, T, ?_⟩
  · rw [files, next]
    exact inv.slots
  · rw [next]
    exact fun a mem => inv.cached a (list a mem)
  · rw [disk, bits]
    exact ⟨sound, fun a => (refs a).congr ((object a).2.inRange (refs a).range) (object a).2.sec⟩

theorem inodeOpen_writers {m addr : Nat} (h : inodeOpen part me s m = .ok (addr, t)) (inv : WriterInv part n s) :
    WriterInv part n t ∧ addr < t.nextAddr := by
  obtain ⟨mem, -, -, rfl⟩ | ⟨-, low, rfl, rfl⟩ := inodeOpen_ok h
  · exact ⟨inv.recount rfl rfl (fun _ h => h) rfl rfl rfl rfl, inv.cached addr mem⟩
  obtain ⟨T, sound, refs⟩ := inv.disk
  obtain ⟨loaded, clear⟩ := sound.slots m low
  refine ⟨⟨inv.writers.congr rfl fun a => ?_, fun g a file => ?_, fun a mem => ?_, inv.files, inv.len, T, sound, fun a => ?_⟩,
    Nat.lt_succ_self _⟩
  · simp only [Fs.load, Fs.setInode, Fs.malloc]
    split
    · rename_i e
      rw [e, inv.next_clear]
      exact clear
    · rfl
  · exact Nat.lt_succ_of_lt (inv.slots g a file)
  · simp only [Fs.load, List.mem_cons] at mem ⊢
    rcases mem with rfl | mem
    · exact Nat.lt_succ_self _
    · exact Nat.lt_succ_of_lt (inv.cached a mem)
  · simp only [Fs.load, Fs.setInode, Fs.malloc]
    split
    · exact loaded.flags _ _
    · exact refs a

theorem inodeClose_writers {addr : Nat} (h : inodeClose me s addr = .ok t) (inv : WriterInv part n s) : WriterInv part n t := by
  obtain ⟨-, rfl⟩ := inodeClose_ok h
  refine inv.recount rfl rfl (fun a mem => ?_) rfl rfl rfl rfl
  simp only [Fs.release] at mem
  split at mem
  · exact List.mem_of_mem_erase mem
  · exact mem

theorem cacheInvariant_writers : CacheInvariant part me (WriterInv part n) where
  opens h inv := (inodeOpen_writers h inv).1
  closes := inodeClose_writers
  mallocs inv := inv.same rfl rfl rfl rfl rfl rfl rfl

theorem not_writes_of_null {g : Nat} (free : (s.fileTable g).fdInode = .null) (a : Nat) : ¬ WriterSlot s g a := by
  rintro ⟨-, h, -⟩
  rw [free] at h
  cases h

/-- A slot that nobody writes through is stored into. -/
theorem WriterInv.setFile (inv : WriterInv part n s) {g : Nat} (file : File) (before : ∀ a, ¬ WriterSlot s g a)
    (after : file.fdInode = .null ∨ ¬ ForWrite file.fdFlag) (inside : ∀ a, file.fdInode = .inode a → a < s.nextAddr)
    (noPipe : file.fdFlag ≠ pipeFlag) : WriterInv part n (s.setFile g file) := by
  refine ⟨inv.writers.setFile before after, fun g' a h => ?_, inv.cached, fun g' => ?_, inv.len, inv.disk⟩
  · by_cases e : g' = g
    · simp only [Fs.setFile, e, if_true] at h
      exact inside a h
    · simp only [Fs.setFile, e, if_false] at h
      exact inv.slots g' a h
  · by_cases e : g' = g
    · simp only [Fs.setFile, e, if_true]
      exact noPipe
    · simp only [Fs.setFile, e, if_false]
      exact inv.files g'

theorem fileOpen_writers {fdTable fdTable' : Nat → Int} {m flag : Nat} {r : Option Nat}
    (h : fileOpen part me s fdTable m flag = .ok (r, t, fdTable')) (small : flag ≤ 7) (inv : WriterInv part n s) :
    WriterInv part n t := by
  have noPipe : flag ≠ pipeFlag := by
    rw [pipeFlag]
    omega
  simp only [fileOpen] at h
  split at h
  · rw [pure_ok] at h
    cases h
    exact inv
  rename_i g found
  obtain ⟨-, lt, free⟩ := getFreeSlotInGlobal_some found
  simp only [bind_ok, Prod.exists] at h
  obtain ⟨addr, s1, opened, h⟩ := h
  obtain ⟨inv1, inside⟩ := inodeOpen_writers opened inv
  rw [← (inodeOpen_cacheOnly opened).fileTable] at free
  have before := not_writes_of_null free
  split at h
  · -- refused: the slot is given back
    rw [pure_ok] at h
    cases h
    have kept := inv1.setFile ⟨0, flag, .null⟩ before (.inl rfl) (by rintro _ ⟨⟩) noPipe
    have same : (s1.setFile g ⟨0, flag, .inode addr⟩).setFile g
        { (s1.setFile g ⟨0, flag, .inode addr⟩).fileTable g with fdInode := .null } = s1.setFile g ⟨0, flag, .null⟩ := by
      simp only [Fs.setFile, if_true]
      congr 1
      funext i
      by_cases e : i = g
      · simp only [e, if_true]
      · simp only [e, if_false]
    rw [same]
    exact kept
  rename_i granted
  rw [pure_ok] at h
  cases h
  split
  · rename_i writes
    have clear : (s1.inodes addr).writeDeny = false := by
      rw [← Bool.not_eq_true]
      exact fun deny => granted ⟨writes, deny⟩
    obtain ⟨T, sound, refs⟩ := inv1.disk
    refine ⟨inv1.writers.write lt before writes clear rfl, fun g' a h => ?_, inv1.cached, fun g' => ?_, inv1.len, T, sound,
      fun a => ?_⟩
    · by_cases e : g' = g
      · simp only [Fs.setInode, Fs.setFile, e, if_true] at h
        cases h
        exact inside
      · simp only [Fs.setInode, Fs.setFile, e, if_false] at h
        exact inv1.slots g' a h
    · by_cases e : g' = g
      · simp only [Fs.setInode, Fs.setFile, e, if_true]
        exact noPipe
      · simp only [Fs.setInode, Fs.setFile, e, if_false]
        exact inv1.files g'
    · by_cases e : a = addr
      · simp only [Fs.setInode, e, if_true]
        exact (refs addr).flags _ _
      · simp only [Fs.setInode, e, if_false]
        exact refs a
  · rename_i reads
    refine inv1.setFile _ before (.inr reads) (fun a h => ?_) noPipe
    cases h
    exact inside

/-- `file_create` gets an object for its inode. -/
theorem WriterInv.new (inv : WriterInv part n s) {f : Nat} (low : f < 4096) :
    WriterInv part n { s.setInode s.nextAddr (inodeInit f) with nextAddr := s.nextAddr + 1 } := by
  obtain ⟨T, sound, refs⟩ := inv.disk
  refine ⟨inv.writers.congr rfl fun a => ?_, fun g a file => Nat.lt_succ_of_lt (inv.slots g a file),
    fun a mem => Nat.lt_succ_of_lt (inv.cached a mem), inv.files, inv.len, T, sound, fun a => ?_⟩
  · by_cases e : a = s.nextAddr
    · simp only [Fs.setInode, e, if_true, inv.next_clear]
      rfl
    · simp only [Fs.setInode, e, if_false]
  · by_cases e : a = s.nextAddr
    · simp only [Fs.setInode, e, if_true]
      exact refers_init (by omega)
    · simp only [Fs.setInode, e, if_false]
      exact refs a

/-- The parent directory takes or refuses the entry. -/
theorem WriterInv.syncDirEntry (lay : Layout part n) (inv : WriterInv part n s) {d : Nat} {e : DirEntry} {ok : Bool} {v : Vnode}
    (h : syncDirEntry part (s.vnode d) e = .ok (ok, v)) : WriterInv part n (s.setVnode d v) := by
  obtain ⟨T, sound, refs⟩ := inv.disk
  obtain ⟨T', up⟩ := syncDirEntry_update lay sound.map sound.tables (refs d) h
  refine ⟨inv.writers.congr rfl fun a => ?_, inv.slots, inv.cached, inv.files, inv.len, T', sound.dirUpdate up, fun a => ?_⟩
  · by_cases e : a = d
    · simp only [Fs.setVnode, Fs.setInode, e, if_true]
      exact up.deny
    · simp only [Fs.setVnode, Fs.setInode, e, if_false]
  · by_cases e : a = d
    · simp only [Fs.setVnode, Fs.setInode, e, if_true]
      exact up.refs
    · simp only [Fs.setVnode, Fs.setInode, e, if_false]
      exact (refs a).mono up.ext

theorem fileCreated_writers {d addr f : Nat} (lay : Layout part n) (low : f < 4096) (inside : addr < s.nextAddr)
    (h : fileCreated part s d addr f = .ok t) (inv : WriterInv part n s) : WriterInv part n t := by
  simp only [fileCreated, bind_ok, pure_ok] at h
  obtain ⟨disk1, synced1, disk2, synced2, disk3, synced3, rfl⟩ := h
  obtain ⟨T, sound, refs⟩ := inv.disk
  have sound3 := ((sound.inodeSync lay (refs d) synced1).inodeSync lay (refs addr) synced2).inodeBits lay low synced3
  refine ⟨inv.writers.congr rfl fun a => ?_, inv.slots, fun a mem => ?_, inv.files, inv.len, T, sound3, fun a => ?_⟩
  · by_cases e : a = addr
    · simp only [Fs.setInode, e, if_true]
    · simp only [Fs.setInode, e, if_false]
  · simp only [Fs.setInode, List.mem_cons] at mem
    rcases mem with rfl | mem
    · exact inside
    · exact inv.cached a mem
  · by_cases e : a = addr
    · simp only [Fs.setInode, e, if_true]
      exact (refs addr).flags _ _
    · simp only [Fs.setInode, e, if_false]
      exact refs a

/-- A file created for reading gets no writer. -/
theorem fileCreate_writers {fdTable fdTable' : Nat → Int} {d : Dir} {name : List Byte} {flag : Nat} {r : Option Nat}
    (lay : Layout part n) (h : fileCreate part me s fdTable d name flag = .ok (r, t, fdTable')) (small : flag ≤ 7)
    (reads : ¬ ForWrite flag) (inv : WriterInv part n s) : WriterInv part n t := by
  have noPipe : flag ≠ pipeFlag := by
    rw [pipeFlag]
    omega
  simp only [fileCreate] at h
  split at h
  · rw [pure_ok] at h
    cases h
    exact inv.same rfl rfl rfl rfl rfl rfl rfl
  split at h
  · rw [pure_ok] at h
    cases h
    exact inv.same rfl rfl rfl rfl rfl rfl rfl
  rename_i f b alloc
  have taken : f < 4096 ∧ b.btmpBytesLen = 512 := by
    simp only [inodeBitmapAlloc] at alloc
    split at alloc
    · cases alloc
    · rename_i i scan
      cases alloc
      have := (bitmapScan_one_some scan).1
      rw [show s.malloc.inodeBitmap.btmpBytesLen = 512 from inv.len] at this
      exact ⟨by omega, inv.len⟩
  obtain ⟨low, len⟩ := taken
  have inv0 : WriterInv part n { s.malloc with inodeBitmap := b } :=
    inv.same rfl rfl rfl rfl (len.trans inv.len.symm) rfl rfl
  split at h
  · rw [pure_ok] at h
    cases h
    exact inv0.same rfl rfl rfl rfl rfl rfl rfl
  have inv1 := inv0.new low
  split at h
  · rw [pure_ok] at h
    cases h
    exact inv1.same rfl rfl rfl rfl rfl rfl rfl
  rename_i g found
  obtain ⟨-, lt, free⟩ := getFreeSlotInGlobal_some found
  simp only [bind_ok, defined_ok, exists_const, Prod.exists] at h
  obtain ⟨entry, -, -, ok, v, synced, h⟩ := h
  have inv2 := inv1.setFile ⟨0, flag, .inode s.nextAddr⟩ (not_writes_of_null free) (.inr reads)
    (fun a e => by cases e; exact Nat.lt_succ_self _) noPipe
  have inv3 := inv2.syncDirEntry lay synced
  split at h
  · rw [pure_ok] at h
    cases h
    refine (inv3.setFile File.empty (fun a => ?_) (.inl rfl) (by rintro _ ⟨⟩) (by decide)).same rfl rfl rfl rfl rfl rfl rfl
    rintro ⟨-, -, writes⟩
    simp only [Fs.setVnode, Fs.setInode, Fs.setFile, if_true] at writes
    exact reads writes
  · simp only [bind_ok, pure_ok] at h
    obtain ⟨s1, created, h⟩ := h
    cases h
    exact fileCreated_writers lay low (Nat.lt_succ_self _) created (inv3.same rfl rfl rfl rfl rfl rfl rfl)

theorem fileClose_writers {g : Nat} (h : fileClose me s g = .ok t) (lt : g < maxFileOpen) (inv : WriterInv part n s)
    (proper : ∀ addr, (s.fileTable g).fdInode = .inode addr → ForWrite (s.fileTable g).fdFlag ∨ ∀ g', ¬ WriterSlot s g' addr) :
    WriterInv part n t := by
  simp only [fileClose] at h
  split at h
  · rename_i addr holds
    simp only [bind_ok, defined_ok, pure_ok, exists_const] at h
    obtain ⟨-, s1, closed, rfl⟩ := h
    obtain ⟨-, rfl⟩ := inodeClose_ok closed
    obtain ⟨T, sound, refs⟩ := inv.disk
    have release : ((s.setInode addr { s.inodes addr with writeDeny := false }).release addr).inodes = fun a =>
        if a = addr then { s.inodes addr with
          writeDeny := false, iOpenCnts := subU32 (s.inodes addr).iOpenCnts 1 } else s.inodes a := by
      funext a
      by_cases e : a = addr
      · simp only [Fs.release, Fs.setInode, e, if_true]
      · simp only [Fs.release, Fs.setInode, e, if_false]
    refine ⟨?_, fun g' a h => ?_, fun a mem => ?_, fun g' => ?_, inv.len, T, sound, fun a => ?_⟩
    · have one := inv.writers.close
        { s.inodes addr with writeDeny := false, iOpenCnts := subU32 (s.inodes addr).iOpenCnts 1 }
        { s.fileTable g with fdInode := .null } lt holds (proper addr holds) rfl rfl
      exact one.congr rfl fun a => congrArg Inode.writeDeny (congrFun release a)
    · by_cases e : g' = g
      · simp only [Fs.setFile, e, if_true] at h
        cases h
      · simp only [Fs.setFile, e, if_false] at h
        exact inv.slots g' a h
    · refine inv.cached a ?_
      simp only [Fs.setFile, Fs.release] at mem
      split at mem
      · exact List.mem_of_mem_erase mem
      · exact mem
    · by_cases e : g' = g
      · simp only [Fs.setFile, e, if_true]
        exact inv.files g
      · simp only [Fs.setFile, e, if_false]
        exact inv.files g'
    · show Refers part n _ T (((s.setInode addr { s.inodes addr with writeDeny := false }).release addr).inodes a)
      rw [release]
      by_cases e : a = addr
      · simp only [e, if_true]
        exact (refs addr).flags _ _
      · simp only [e, if_false]
        exact refs a
  · exact (throw_ok.1 h).elim

theorem openPath_writers {fdTable fdTable' : Nat → Int} {path : List Byte} {flags : Nat} {fd : Option Nat} (lay : Layout part n)
    (h : openPath part me s fdTable path flags = .ok (fd, t, fdTable')) (inv : WriterInv part n s)
    (reads : ReachesFileCreate part me s path flags → ¬ ForWrite flags) : WriterInv part n t := by
  obtain rfl | ⟨r, s1, small, search, done⟩ := openPath_cases h
  · exact inv
  have inv1 := cacheInvariant_writers.searchFile search inv
  obtain closed | ⟨reaches, s2, created, closed⟩ | ⟨m, opened⟩ := done
  · exact dirClose_keeps inodeClose_writers closed inv1
  · exact dirClose_keeps inodeClose_writers closed (fileCreate_writers lay created small (reads reaches) inv1)
  · exact fileOpen_writers opened small inv1

end Calls

/-- The call creates a file and opens it for writing. -/
def CreatesForWriting (part : Partition) (σ : Sys) (pid : Nat) (call : Call) : Prop :=
  ∃ pathname flags, call = .open pathname flags ∧ ForWrite flags ∧
    ReachesFileCreate part (σ.heapOf pid) σ.fs pathname flags

/-- The call closes a slot that is not open for writing while another slot on the same
inode is. -/
def ClosesBesideWriter (σ : Sys) (pid : Nat) (call : Call) : Prop :=
  ∃ (fd : Int) (g a g' : Nat), call = .close fd ∧ 2 < fd ∧ (σ.procs pid).fdTable fd.toNat = g ∧
    (σ.fs.fileTable g).fdInode = .inode a ∧ ¬ ForWrite (σ.fs.fileTable g).fdFlag ∧ WriterSlot σ.fs g' a

/-- The call is `sys_open` or `sys_close`. -/
def OpensOrCloses : Call → Prop
  | .open _ _ => True
  | .close _ => True
  | _ => False

section Runs

variable {part : Partition} {n pid : Nat} {σ σ' : Sys} {r : Int}

theorem sysClose_writers {fd : Int} (h : sysClose pid σ fd = .ok (r, σ')) (inv : WriterInv part n σ.fs)
    (proper : ¬ ClosesBesideWriter σ pid (.close fd)) : WriterInv part n σ'.fs := by
  obtain ⟨-, rfl⟩ | ⟨g, s, proper_fd, entry, closed, rfl⟩ := sysClose_ok h
  · exact inv
  obtain ⟨-, lt, is⟩ := fdLocal2Global_ok entry
  show WriterInv part n s
  have file : isPipe σ.fs g = false := beq_eq_false_iff_ne.2 (inv.files g)
  rw [closeSlot, file, if_neg Bool.false_ne_true] at closed
  refine fileClose_writers closed lt inv fun a holds => or_iff_not_imp_left.2 fun reads g' writes => ?_
  exact proper ⟨fd, g, a, g', rfl, proper_fd, is, holds, reads, writes⟩

/-- One call keeps the writers apart. -/
theorem exec_writers {call : Call} (lay : Layout part n) (h : exec part pid σ call = .ok (r, σ')) (inv : WriterInv part n σ.fs)
    (kind : OpensOrCloses call) (create : ¬ CreatesForWriting part σ pid call) (close : ¬ ClosesBesideWriter σ pid call) :
    WriterInv part n σ'.fs := by
  cases call with
  | «open» path flags =>
    simp only [exec, sysOpen, bind_ok, pure_ok, Prod.exists] at h
    obtain ⟨fd, s, table, opened, h⟩ := h
    cases h
    exact openPath_writers lay opened inv fun reaches writes => create ⟨path, flags, rfl, writes, reaches⟩
  | close fd => exact sysClose_writers h inv close
  | _ => exact kind.elim

/-- After mounting no file is open. -/
theorem mount_writers {disk : Image} {startLba secCnt : Nat} {s s' : Fs} (lay : Layout part n)
    (mount : mountPartition disk startLba secCnt = .ok (part, s)) (root : openRootDir part s = .ok s')
    (sound : ∃ T, DiskSound part n s.disk s.blockBitmap T) : WriterInv part n s' := by
  obtain ⟨T, sound⟩ := sound
  have empty : s.fileTable = (fun _ => File.empty) ∧ s.inodes = (fun _ => inodeInit 0) ∧ s.openInodes = [] ∧
      s.inodeBitmap.btmpBytesLen = part.sb.inodeBitmapSects * 512 := by
    simp only [mountPartition, bind_ok, pure_ok] at mount
    obtain ⟨_, -, _, -, _, -, h⟩ := mount
    cases h
    exact ⟨rfl, rfl, rfl, rfl⟩
  obtain ⟨files, inodes, list, len⟩ := empty
  have closed : ∀ g a, (s.fileTable g).fdInode ≠ .inode a := by
    intro g a
    rw [files]
    rintro ⟨⟩
  have inv : WriterInv part n s := by
    refine ⟨⟨fun a g _ writes => absurd writes.2.1 (closed g a), fun a => ?_⟩, fun g a file => absurd file (closed g a),
      fun a mem => ?_, fun g => ?_, ?_, T, sound, fun a => ?_⟩
    · rw [inodes]
      refine iff_of_false Bool.false_ne_true ?_
      rintro ⟨g, -, file, -⟩
      exact closed g a file
    · rw [list] at mem
      cases mem
    · rw [files]
      exact (by decide : 0 ≠ pipeFlag)
    · rw [len, lay.inodeBitmapSects]
    · rw [inodes]
      exact refers_init (by decide)
  simp only [openRootDir, bind_ok, pure_ok, Prod.exists] at root
  obtain ⟨addr, s1, opened, rfl⟩ := root
  exact (inodeOpen_writers opened inv).1.same rfl rfl rfl rfl rfl rfl rfl

/-- **One writer at a time.** Along every run of `sys_open` and `sys_close` calls on a
mounted partition with a sound disk, in which no call creates a file for writing and none
closes a reader beside a writer, every inode has at most one slot open for writing, and its
`write_deny` is set exactly while there is one. -/
theorem single_writer {disk : Image} {startLba secCnt : Nat} {s s' : Fs} (lay : Layout part n)
    (mount : mountPartition disk startLba secCnt = .ok (part, s)) (root : openRootDir part s = .ok s')
    (sound : ∃ T, DiskSound part n s.disk s.blockBitmap T)
    (run : Run part (fun σ pid call _ => OpensOrCloses call ∧ ¬ CreatesForWriting part σ pid call ∧
      ¬ ClosesBesideWriter σ pid call) (bootSys s') σ') : SingleWriter σ'.fs := by
  have inv : WriterInv part n σ'.fs :=
    run.invariant (I := fun σ => WriterInv part n σ.fs)
      (fun _ _ _ _ _ inv ok h => exec_writers lay h inv ok.1 ok.2.1 ok.2.2) (mount_writers lay mount root sound)
  exact inv.writers

/-- A test that is true of calls that neither create for writing nor close beside a writer. -/
def writerTest (σ : Sys) (pid : Nat) : Call → Bool
  | .open _ flags => decide (flags &&& oCreat = 0 ∨ ¬ ForWrite flags)
  | .close fd => decide (ForWrite (σ.fs.fileTable ((σ.procs pid).fdTable fd.toNat).toNat).fdFlag) ||
      (List.range maxFileOpen).all fun g => decide (¬ ForWrite (σ.fs.fileTable g).fdFlag)
  | _ => false

theorem writerTest_sound {call : Call} (h : writerTest σ pid call = true) :
    OpensOrCloses call ∧ ¬ CreatesForWriting part σ pid call ∧ ¬ ClosesBesideWriter σ pid call := by
  cases call with
  | «open» path flags =>
    simp only [writerTest, decide_eq_true_eq] at h
    refine ⟨trivial, ?_, ?_⟩
    · rintro ⟨_, _, same, writes, -, create, -⟩
      cases same
      rcases h with none | reads
      · exact create none
      · exact reads writes
    · rintro ⟨_, _, _, _, same, -⟩
      cases same
  | close fd =>
    simp only [writerTest, Bool.or_eq_true, decide_eq_true_eq, List.all_eq_true, List.mem_range] at h
    refine ⟨trivial, ?_, ?_⟩
    · rintro ⟨_, _, same, -⟩
      cases same
    · rintro ⟨_, g, a, g', same, -, is, -, reads, lt, -, writes⟩
      cases same
      rw [is, Int.toNat_natCast] at h
      rcases h with writes' | none
      · exact reads writes'
      · exact none g' lt writes
  | _ => cases h

/-- The small partition after formatting. -/
theorem formatted_small {s' : Fs} (h : formatAndMount (fun _ => 0#8) 1 620 = .ok (part, s')) :
    ∃ disk s, Layout part 8 ∧ mountPartition disk 1 620 = .ok (part, s) ∧ openRootDir part s = .ok s' ∧
      ∃ T, DiskSound part 8 s.disk s.blockBitmap T := by
  have sizes : formatSizes 620 = .ok (1, 8) := rfl
  simp only [formatAndMount, bind_ok, pure_ok, Prod.exists] at h
  obtain ⟨disk, format, part', s, mount, s1, root, same⟩ := h
  cases same
  obtain ⟨onDisk, super, fresh⟩ := partitionFormat_ok format sizes
  have lay := formatPartition_layout (by decide) sizes (by decide) onDisk
  obtain ⟨rfl, rfl⟩ := mountPartition_ok (by decide) onDisk super mount
  exact ⟨disk, _, lay, mount, root, _, fresh.diskSound lay⟩

/-- The main thread creates a file for reading and closes it, then two tasks open it, the
second for writing; that one closes it and opens it for writing again. -/
theorem single_writer_two :
    ∃ disk part s s' σ', Layout part 8 ∧ mountPartition disk 1 620 = .ok (part, s) ∧ openRootDir part s = .ok s' ∧
      (∃ T, DiskSound part 8 s.disk s.blockBitmap T) ∧
      Run part (fun σ pid call _ => OpensOrCloses call ∧ ¬ CreatesForWriting part σ pid call ∧
        ¬ ClosesBesideWriter σ pid call) (bootSys s') σ' ∧
      (∃ a, WriterSlot σ'.fs 4 a) ∧ SingleWriter σ'.fs := by
  have ran : returns (freshRun 620 (fun σ pid call _ => writerTest σ pid call)
      [(2, .open pathF oCreat), (2, .close 3), (1, .open pathF 0), (2, .open pathF oRdwr), (2, .close 3),
        (2, .open pathF oRdwr)]) (fun x => decide ((x.2.fs.fileTable 4).fdInode = .inode 2) &&
          decide (ForWrite (x.2.fs.fileTable 4).fdFlag)) = true := by
    decide
  obtain ⟨⟨part, σ'⟩, ran, writes⟩ := returns_true.1 ran
  obtain ⟨s', formatted, ran⟩ := freshRun_ok ran
  obtain ⟨disk, s, lay, mount, root, sound⟩ := formatted_small formatted
  have run : Run part (fun σ pid call _ => OpensOrCloses call ∧ ¬ CreatesForWriting part σ pid call ∧
      ¬ ClosesBesideWriter σ pid call) (bootSys s') σ' :=
    runCalls_run (fun _ _ _ _ => writerTest_sound) _ _ ran
  simp only [Bool.and_eq_true, decide_eq_true_eq] at writes
  exact ⟨disk, part, s, s', σ', lay, mount, root, sound, run, ⟨2, by decide, writes.1, writes.2⟩,
    single_writer lay mount root sound run⟩

/-- Whether a call opens a file. -/
def opensTest : Call → Bool
  | .open _ _ => true
  | _ => false

/-- The main thread creates a file for reading and writing and leaves it open; `init` may
open it for writing, too. -/
theorem createWriter_second :
    ¬ ∀ (disk : Image) (startLba secCnt n : Nat) (part : Partition) (s s' : Fs) (σ' : Sys), Layout part n →
      mountPartition disk startLba secCnt = .ok (part, s) → openRootDir part s = .ok s' →
      (∃ T, DiskSound part n s.disk s.blockBitmap T) → Run part (fun _ _ call _ => OpensOrCloses call) (bootSys s') σ' →
      SingleWriter σ'.fs := by
  intro claim
  have ran : returns (freshRun 620 (fun _ _ call _ => opensTest call)
      [(2, .open pathF (oCreat ||| oRdwr)), (1, .open pathF oRdwr)])
      (fun x => decide ((x.2.fs.fileTable 3).fdInode = .inode 1) && decide ((x.2.fs.fileTable 4).fdInode = .inode 1) &&
        decide (ForWrite (x.2.fs.fileTable 3).fdFlag) && decide (ForWrite (x.2.fs.fileTable 4).fdFlag)) = true := by
    decide
  obtain ⟨⟨part, σ'⟩, ran, found⟩ := returns_true.1 ran
  obtain ⟨s', formatted, ran⟩ := freshRun_ok ran
  obtain ⟨disk, s, lay, mount, root, sound⟩ := formatted_small formatted
  simp only [Bool.and_eq_true, decide_eq_true_eq] at found
  obtain ⟨⟨⟨three, four⟩, writes⟩, writes'⟩ := found
  have one := claim disk 1 620 8 part s s' σ' lay mount root sound
    (runCalls_run (fun _ _ call _ _ => by cases call <;> trivial) _ _ ran)
  exact absurd (one.single 1 3 4 ⟨by decide, three, writes⟩ ⟨by decide, four, writes'⟩) (by decide)

end Runs

end Sparrow
