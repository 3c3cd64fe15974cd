import Sparrow.Fs.Cache
import Sparrow.Fs.Tree

/-!
# Handles on inodes

The cache holds one `struct inode` for every inode somebody has a handle on, and counts
the handles. `Cached` says so for a given number `H a` of handles on the object at address
`a`; the root directory has one handle more, its own. Opening and closing move `H` by one
(`inodeOpen_inv`, `inodeClose_inv`).
-/

namespace Sparrow
set_option autoImplicit false

/-- One handle more on `a`. -/
def bump (H : Nat → Nat) (a : Nat) : Nat → Nat := Function.update H a (H a + 1)

/-- The cache of open inodes, with `H` handles. -/
structure Cached (part : Partition) (s : Fs) (sh : Shape) (H : Nat → Nat) : Prop where
  nodup : s.openInodes.Nodup
  fresh : ∀ a ∈ s.openInodes, a < s.nextAddr
  held : ∀ a, a ∈ s.openInodes ↔ 0 < H a ∨ a = s.rootDir
  counts : ∀ a ∈ s.openInodes, (s.inodes a).iOpenCnts = H a + if a = s.rootDir then 1 else 0
  distinct : ∀ a ∈ s.openInodes, ∀ a' ∈ s.openInodes, (s.inodes a).iNo = (s.inodes a').iNo → a = a'
  stored : ∀ a ∈ s.openInodes, sh.live (s.inodes a).iNo →
    SameStored (s.inodes a) (slot part s.disk (s.inodes a).iNo)
  root : (s.inodes s.rootDir).iNo = 0

/-- The mounted partition with `H` handles on its inodes, also while an inode is being
released. -/
structure FsCore (part : Partition) (n : Nat) (s : Fs) (sh : Shape) (H : Nat → Nat) : Prop where
  tree : Tree part n s.disk s.blockBitmap sh
  cache : Cached part s sh H
  len : s.inodeBitmap.btmpBytesLen = 512

/-- The mounted partition with `H` handles on its inodes. -/
structure FsInv (part : Partition) (n : Nat) (s : Fs) (sh : Shape) (H : Nat → Nat) : Prop
    extends FsCore part n s sh H where
  bits : ∀ m, m < 4096 → (s.inodeBitmap.Set m ↔ sh.live m)
  alive : ∀ a ∈ s.openInodes, sh.live (s.inodes a).iNo

/-- Only the cache was used: the objects in it keep all but their counts. -/
structure Browsed (s t : Fs) : Prop extends CacheOnly s t where
  next : s.nextAddr ≤ t.nextAddr
  inodes : ∀ a, a < s.nextAddr → t.inodes a = { s.inodes a with iOpenCnts := (t.inodes a).iOpenCnts }

theorem Browsed.refl (s : Fs) : Browsed s s := ⟨.refl s, Nat.le_refl _, fun _ _ => rfl⟩

theorem Browsed.trans {s t u : Fs} (h : Browsed s t) (h' : Browsed t u) : Browsed s u := by
  refine ⟨h.toCacheOnly.trans h'.toCacheOnly, Nat.le_trans h.next h'.next, fun a lt => ?_⟩
  rw [h'.inodes a (Nat.lt_of_lt_of_le lt h.next), h.inodes a lt]

section Counts

variable {H : Nat → Nat} {a a' : Nat}

theorem bump_self : bump H a a = H a + 1 := Function.update_self ..

theorem bump_of_ne (ne : a' ≠ a) : bump H a a' = H a' := Function.update_of_ne ne ..

theorem bump_le : bump H a a' ≤ H a' + 1 := by
  by_cases e : a' = a
  · rw [e, bump_self]
  · rw [bump_of_ne e]
    omega

theorem bump_comm (H : Nat → Nat) (a a' : Nat) : bump (bump H a) a' = bump (bump H a') a := by
  funext x
  by_cases e : x = a <;> by_cases e' : x = a'
  · rw [← e, ← e']
  · rw [bump_of_ne e', e, bump_self, bump_self, bump_of_ne (e ▸ e')]
  · rw [bump_of_ne (a := a) e, e', bump_self, bump_self, bump_of_ne (e' ▸ e)]
  · rw [bump_of_ne e', bump_of_ne e, bump_of_ne e, bump_of_ne e']

end Counts

section Open

variable {part : Partition} {n m addr : Nat} {me : Option Nat} {s t : Fs} {sh : Shape} {H : Nat → Nat}

/-- The invariant does not look at the heap. -/
theorem FsCore.heap (inv : FsCore part n s sh H) (mallocs : List Bool) : FsCore part n { s with mallocs := mallocs } sh H :=
  ⟨inv.tree, ⟨inv.cache.nodup, inv.cache.fresh, inv.cache.held, inv.cache.counts, inv.cache.distinct, inv.cache.stored,
    inv.cache.root⟩, inv.len⟩

theorem FsInv.heap (inv : FsInv part n s sh H) (mallocs : List Bool) : FsInv part n { s with mallocs := mallocs } sh H :=
  ⟨inv.toFsCore.heap mallocs, inv.bits, inv.alive⟩

theorem FsInv.malloc (inv : FsInv part n s sh H) : FsInv part n s.malloc sh H := inv.heap _

theorem browsed_malloc : Browsed s s.malloc := ⟨⟨rfl, rfl, rfl, rfl, rfl⟩, Nat.le_refl _, fun _ _ => rfl⟩

/-- The object of a number is unique. -/
theorem Cached.addr_eq (cache : Cached part s sh H) {a a' : Nat} (ha : a ∈ s.openInodes) (ha' : a' ∈ s.openInodes)
    (is : (s.inodes a).iNo = m) (is' : (s.inodes a').iNo = m) : a = a' := cache.distinct a ha a' ha' (is.trans is'.symm)

theorem Cached.retain (cache : Cached part s sh H) (mem : addr ∈ s.openInodes) :
    Cached part (s.retain addr) sh (bump H addr) := by
  have same : ∀ a, (s.retain addr).inodes a = { s.inodes a with iOpenCnts := ((s.retain addr).inodes a).iOpenCnts } := by
    intro a
    simp only [Fs.retain, Fs.setInode]
    split <;> simp_all
  have number : ∀ a, ((s.retain addr).inodes a).iNo = (s.inodes a).iNo := fun a => by rw [same a]
  refine ⟨cache.nodup, cache.fresh, fun a => ?_, fun a mem' => ?_, fun a h a' h' => ?_, fun a h => ?_, ?_⟩
  · show a ∈ s.openInodes ↔ 0 < bump H addr a ∨ a = s.rootDir
    by_cases e : a = addr
    · subst e
      rw [bump_self]
      exact ⟨fun _ => .inl (by omega), fun _ => mem⟩
    · rw [bump_of_ne e]
      exact cache.held a
  · have count := cache.counts a mem'
    show (if a = addr then _ else s.inodes a : Inode).iOpenCnts = bump H addr a + if a = s.rootDir then 1 else 0
    by_cases e : a = addr
    · subst e
      rw [if_pos rfl, bump_self]
      show (s.inodes a).iOpenCnts + 1 = _
      omega
    · rw [if_neg e, bump_of_ne e]
      exact count
  · rw [number, number]
    exact cache.distinct a h a' h'
  · rw [number]
    intro live
    have stored := cache.stored a h live
    rw [same a]
    exact ⟨stored.iNo, stored.iSize, stored.iSectors⟩
  · rw [number]
    exact cache.root

theorem browsed_retain : Browsed s (s.retain addr) := by
  refine ⟨cacheOnly_retain, Nat.le_refl _, fun a _ => ?_⟩
  simp only [Fs.retain, Fs.setInode]
  split <;> simp_all

/-- A new object joins the cache, with one handle. -/
theorem Cached.join (cache : Cached part s sh H) (openInodes : t.openInodes = addr :: s.openInodes)
    (fresh : addr ∉ s.openInodes) (next : s.nextAddr ≤ t.nextAddr) (old : ∀ a ∈ s.openInodes, t.inodes a = s.inodes a)
    (rootDir : t.rootDir = s.rootDir) (slots : ∀ m, sh.live m → slot part t.disk m = slot part s.disk m)
    (inside : addr < t.nextAddr) (one : (t.inodes addr).iOpenCnts = 1)
    (absent : ∀ a ∈ s.openInodes, (s.inodes a).iNo ≠ (t.inodes addr).iNo)
    (stored : sh.live (t.inodes addr).iNo → SameStored (t.inodes addr) (slot part t.disk (t.inodes addr).iNo)) :
    Cached part t sh (bump H addr) := by
  have rootOpen : s.rootDir ∈ s.openInodes := (cache.held _).2 (.inr rfl)
  have unheld : H addr = 0 ∧ addr ≠ s.rootDir := by
    have := mt (cache.held addr).2 fresh
    omega
  have ne : ∀ a ∈ s.openInodes, a ≠ addr := fun a mem e => fresh (e ▸ mem)
  refine ⟨openInodes ▸ List.nodup_cons.2 ⟨fresh, cache.nodup⟩, fun a mem => ?_, fun a => ?_, fun a mem => ?_,
    fun a mem a' mem' e => ?_, fun a mem => ?_, ?_⟩
  · rcases List.mem_cons.1 (openInodes ▸ mem) with rfl | mem
    · exact inside
    · exact Nat.lt_of_lt_of_le (cache.fresh a mem) next
  · rw [openInodes, rootDir]
    by_cases e : a = addr
    · subst e
      rw [bump_self]
      exact ⟨fun _ => .inl (by omega), fun _ => List.mem_cons_self⟩
    · rw [bump_of_ne e, List.mem_cons, ← cache.held a]
      exact ⟨fun h => h.resolve_left e, .inr⟩
  · rw [rootDir]
    rcases List.mem_cons.1 (openInodes ▸ mem) with rfl | mem
    · rw [one, bump_self, unheld.1, if_neg unheld.2]
    · rw [old a mem, bump_of_ne (ne a mem)]
      exact cache.counts a mem
  · rcases List.mem_cons.1 (openInodes ▸ mem) with rfl | mem <;> rcases List.mem_cons.1 (openInodes ▸ mem') with rfl | mem'
    · rfl
    · rw [old a' mem'] at e
      exact absurd e.symm (absent a' mem')
    · rw [old a mem] at e
      exact absurd e (absent a mem)
    · rw [old a mem, old a' mem'] at e
      exact cache.distinct a mem a' mem' e
  · rcases List.mem_cons.1 (openInodes ▸ mem) with rfl | mem
    · exact stored
    · rw [old a mem]
      intro live
      rw [slots _ live]
      exact cache.stored a mem live
  · rw [rootDir, old _ rootOpen]
    exact cache.root

/-- One object of the cache is given other contents, and its slot with it. -/
theorem Cached.store (cache : Cached part s sh H) (addr : Nat) (ino : Inode) {sh' : Shape}
    (openInodes : t.openInodes = s.openInodes) (next : s.nextAddr ≤ t.nextAddr)
    (old : ∀ a ∈ s.openInodes, t.inodes a = if a = addr then ino else s.inodes a) (rootDir : t.rootDir = s.rootDir)
    (number : ino.iNo = (s.inodes addr).iNo) (count : ino.iOpenCnts = (s.inodes addr).iOpenCnts)
    (stored : sh'.live ino.iNo → SameStored ino (slot part t.disk ino.iNo))
    (slots : ∀ a ∈ s.openInodes, a ≠ addr → sh'.live (s.inodes a).iNo →
      sh.live (s.inodes a).iNo ∧ slot part t.disk (s.inodes a).iNo = slot part s.disk (s.inodes a).iNo) :
    Cached part t sh' H := by
  have numbers : ∀ a ∈ s.openInodes, (t.inodes a).iNo = (s.inodes a).iNo := by
    intro a mem
    rw [old a mem]
    split
    · rename_i e
      rw [e, number]
    · rfl
  refine ⟨openInodes ▸ cache.nodup, fun a h => ?_, fun a => ?_, fun a h => ?_, fun a h a' h' => ?_, fun a h => ?_, ?_⟩
  · exact Nat.lt_of_lt_of_le (cache.fresh a (openInodes ▸ h)) next
  · rw [openInodes, rootDir]
    exact cache.held a
  · rw [openInodes] at h
    rw [rootDir, ← cache.counts a h, old a h]
    split
    · rename_i e
      rw [e, count]
    · rfl
  · rw [openInodes] at h h'
    rw [numbers a h, numbers a' h']
    exact cache.distinct a h a' h'
  · rw [openInodes] at h
    rw [old a h]
    split
    · exact stored
    · rename_i ne
      intro live
      obtain ⟨live', same⟩ := slots a h ne live
      rw [same]
      exact cache.stored a h live'
  · rw [rootDir, numbers _ ((cache.held _).2 (.inr rfl))]
    exact cache.root

/-- The cache does not see changes of the storage that leave the slots of live inodes. -/
theorem Cached.storage (cache : Cached part s sh H) (inodes : ∀ a ∈ s.openInodes, t.inodes a = s.inodes a)
    (next : s.nextAddr ≤ t.nextAddr) (openInodes : t.openInodes = s.openInodes) (rootDir : t.rootDir = s.rootDir)
    (slots : ∀ m, sh.live m → slot part t.disk m = slot part s.disk m) : Cached part t sh H := by
  have mem : s.rootDir ∈ s.openInodes := (cache.held _).2 (.inr rfl)
  refine cache.store s.rootDir (s.inodes s.rootDir) openInodes next (fun a h => ?_) rootDir rfl rfl
    (fun live => ?_) fun a h _ live => ⟨live, slots _ live⟩
  · rw [inodes a h]
    split
    · rename_i e
      rw [e]
    · rfl
  · rw [slots _ live]
    exact cache.stored _ mem live

theorem Cached.load (cache : Cached part s sh H) (number : (slot part s.disk m).iNo = m)
    (absent : ∀ a ∈ s.openInodes, (s.inodes a).iNo ≠ m) : Cached part (s.load part m) sh (bump H s.nextAddr) := by
  have new : (s.load part m).inodes s.nextAddr = { slot part s.disk m with iOpenCnts := 1 } := if_pos rfl
  have is : ((s.load part m).inodes s.nextAddr).iNo = m := by rw [new]; exact number
  refine cache.join rfl (fun mem => Nat.lt_irrefl _ (cache.fresh _ mem)) (Nat.le_succ _)
    (fun a mem => if_neg (Nat.ne_of_lt (cache.fresh a mem))) rfl (fun _ _ => rfl) (Nat.lt_succ_self _) (by rw [new])
    (by rw [is]; exact absent) fun _ => ?_
  rw [is, new]
  exact ⟨rfl, rfl, rfl⟩

/-- **`inode_open`** finds the object of the number or makes it. -/
theorem inodeOpen_core (inv : FsCore part n s sh H) (number : (slot part s.disk m).iNo = m)
    (h : inodeOpen part me s m = .ok (addr, t)) :
    FsCore part n t sh (bump H addr) ∧ Browsed s t ∧ addr ∈ t.openInodes ∧ (t.inodes addr).iNo = m ∧
      ((addr ∈ s.openInodes ∧ t.openInodes = s.openInodes) ∨
        (addr = s.nextAddr ∧ t.openInodes = addr :: s.openInodes ∧ (∀ a ∈ s.openInodes, (s.inodes a).iNo ≠ m) ∧
          t.inodes addr = { slot part s.disk m with iOpenCnts := 1 })) := by
  obtain ⟨mem, is, -, rfl⟩ | ⟨absent, -, rfl, rfl⟩ := inodeOpen_ok h
  · refine ⟨⟨inv.tree, inv.cache.retain mem, inv.len⟩, browsed_retain, mem, ?_, .inl ⟨mem, rfl⟩⟩
    rw [browsed_retain.inodes addr (inv.cache.fresh addr mem)]
    exact is
  · have new : (s.load part m).inodes s.nextAddr = { slot part s.disk m with iOpenCnts := 1 } := if_pos rfl
    refine ⟨⟨inv.tree, inv.cache.load number absent, inv.len⟩,
      ⟨cacheOnly_load, Nat.le_succ _, fun a lt => ?_⟩, List.mem_cons_self, ?_, .inr ⟨rfl, rfl, absent, new⟩⟩
    · have old : (s.load part m).inodes a = s.inodes a := if_neg (Nat.ne_of_lt lt)
      rw [old]
    · rw [new]
      exact number

/-- One handle more on a cached inode. -/
theorem FsInv.retain (inv : FsInv part n s sh H) (mem : addr ∈ s.openInodes) : FsInv part n (s.retain addr) sh (bump H addr) := by
  refine ⟨⟨inv.tree, inv.cache.retain mem, inv.len⟩, inv.bits, fun a h => ?_⟩
  rw [browsed_retain.inodes a (inv.cache.fresh a h)]
  exact inv.alive a h

/-- The same for a live inode. -/
theorem inodeOpen_inv (inv : FsInv part n s sh H) (live : sh.live m) (h : inodeOpen part me s m = .ok (addr, t)) :
    FsInv part n t sh (bump H addr) ∧ Browsed s t ∧ addr ∈ t.openInodes ∧ (t.inodes addr).iNo = m ∧
      (addr ∉ s.openInodes → (t.inodes addr).writeDeny = false) := by
  have node := inv.tree.node m live
  obtain ⟨core, browsed, mem, number, how⟩ := inodeOpen_core inv.toFsCore node.number h
  refine ⟨⟨core, fun m lt => ?_, fun a h => ?_⟩, browsed, mem, number, fun out => ?_⟩
  · rw [browsed.inodeBitmap]
    exact inv.bits m lt
  · have old : a ∈ s.openInodes → sh.live (t.inodes a).iNo := fun h => by
      rw [browsed.inodes a (inv.cache.fresh a h)]
      exact inv.alive a h
    obtain ⟨-, same⟩ | ⟨-, same, -⟩ := how
    · exact old (same ▸ h)
    · rw [same] at h
      rcases List.mem_cons.1 h with rfl | h
      · rw [number]
        exact live
      · exact old h
  · obtain ⟨mem, -⟩ | ⟨-, -, -, new⟩ := how
    · exact absurd mem out
    · rw [new]
      exact node.deny

theorem Cached.release (cache : Cached part s sh (bump H addr)) (room : H addr + 2 < 2 ^ 32) :
    Cached part (s.release addr) sh H := by
  have mem : addr ∈ s.openInodes := (cache.held addr).2 (.inl (by rw [bump_self]; omega))
  have count := cache.counts addr mem
  rw [bump_self] at count
  have less : subU32 (s.inodes addr).iOpenCnts 1 = H addr + if addr = s.rootDir then 1 else 0 := by
    rw [subU32_of_le (by omega) (by split at count <;> omega)]
    omega
  have same : ∀ a, (s.release addr).inodes a = { s.inodes a with iOpenCnts := ((s.release addr).inodes a).iOpenCnts } := by
    intro a
    simp only [Fs.release, Fs.setInode]
    split <;> simp_all
  have number : ∀ a, ((s.release addr).inodes a).iNo = (s.inodes a).iNo := fun a => by rw [same a]
  have gone : subU32 (s.inodes addr).iOpenCnts 1 = 0 ↔ ¬ (0 < H addr ∨ addr = s.rootDir) := by
    rw [less]
    split <;> omega
  have held : ∀ a, a ∈ (s.release addr).openInodes ↔ 0 < H a ∨ a = s.rootDir := by
    intro a
    simp only [Fs.release]
    by_cases e : a = addr
    · subst e
      split
      · rename_i zero
        rw [cache.nodup.mem_erase_iff]
        exact ⟨fun h => absurd rfl h.1, fun h => absurd h (gone.1 zero)⟩
      · rename_i more
        rw [gone, not_not] at more
        exact ⟨fun _ => more, fun _ => mem⟩
    · have others := cache.held a
      rw [bump_of_ne e] at others
      split
      · rw [cache.nodup.mem_erase_iff, ← others]
        exact and_iff_right e
      · exact others
  have sub : ∀ a, a ∈ (s.release addr).openInodes → a ∈ s.openInodes := by
    intro a h
    rw [held] at h
    refine (cache.held a).2 (h.imp_left fun pos => ?_)
    by_cases e : a = addr
    · rw [e, bump_self]
      omega
    · rwa [bump_of_ne e]
  refine ⟨?_, fun a h => cache.fresh a (sub a h), held, fun a h => ?_, fun a h a' h' e => ?_, fun a h => ?_, ?_⟩
  · simp only [Fs.release]
    split
    · exact cache.nodup.erase _
    · exact cache.nodup
  · show (if a = addr then _ else s.inodes a : Inode).iOpenCnts = H a + if a = s.rootDir then 1 else 0
    by_cases e : a = addr
    · subst e
      rw [if_pos rfl]
      exact less
    · have := cache.counts a (sub a h)
      rw [bump_of_ne e] at this
      rw [if_neg e]
      exact this
  · rw [number, number] at e
    exact cache.distinct a (sub a h) a' (sub a' h') e
  · rw [number]
    intro live
    have stored := cache.stored a (sub a h) live
    rw [same a]
    exact ⟨stored.iNo, stored.iSize, stored.iSectors⟩
  · show ((s.release addr).inodes s.rootDir).iNo = 0
    rw [number]
    exact cache.root

/-- **`inode_close`**. -/
theorem inodeClose_core (inv : FsCore part n s sh (bump H addr)) (room : H addr + 2 < 2 ^ 32)
    (h : inodeClose me s addr = .ok t) :
    FsCore part n t sh H ∧ Browsed s t ∧ ∀ a ∈ t.openInodes, a ∈ s.openInodes := by
  obtain ⟨-, rfl⟩ := inodeClose_ok h
  refine ⟨⟨inv.tree, inv.cache.release room, inv.len⟩, ⟨cacheOnly_release, Nat.le_refl _, fun a _ => ?_⟩, fun a h => ?_⟩
  · simp only [Fs.release, Fs.setInode]
    split <;> simp_all
  · simp only [Fs.release] at h
    split at h
    · exact List.mem_of_mem_erase h
    · exact h

theorem inodeClose_inv (inv : FsInv part n s sh (bump H addr)) (room : H addr + 2 < 2 ^ 32)
    (h : inodeClose me s addr = .ok t) : FsInv part n t sh H ∧ Browsed s t := by
  obtain ⟨core, browsed, sub⟩ := inodeClose_core inv.toFsCore room h
  refine ⟨⟨core, fun m lt => ?_, fun a h => ?_⟩, browsed⟩
  · rw [browsed.inodeBitmap]
    exact inv.bits m lt
  · rw [browsed.inodes a (inv.cache.fresh a (sub a h))]
    exact inv.alive a (sub a h)

end Open

/-- The inode bitmap on disk is the one in memory. -/
def InodeSynced (part : Partition) (disk : Image) (b : Bitmap) : Prop :=
  ∀ i, i < 512 → disk (512 * part.sb.inodeBitmapLba + i) = b.bits i

/-- Both bitmaps are on disk as they are in memory if they were before, but for the bits
of blocks in `bad`. -/
structure BitsKept (part : Partition) (bad : Nat → Prop) (s t : Fs) : Prop where
  blocks : ∀ X, SyncedBut part X s.disk s.blockBitmap → SyncedBut part (fun j => X j ∨ bad j) t.disk t.blockBitmap
  inodes : InodeSynced part s.disk s.inodeBitmap → InodeSynced part t.disk t.inodeBitmap

/-- The file table has the same inodes open, and objects keep their numbers. -/
structure Steady (s t : Fs) : Prop where
  next : s.nextAddr ≤ t.nextAddr
  numbers : ∀ a, a < s.nextAddr → (t.inodes a).iNo = (s.inodes a).iNo
  slots : ∀ i, (t.fileTable i).fdInode = (s.fileTable i).fdInode
  flags : ∀ i, (t.fileTable i).fdFlag = (s.fileTable i).fdFlag ∨ (t.fileTable i).fdFlag = 0

section Effects

variable {part : Partition} {n : Nat} {s t u : Fs} {sh : Shape} {H : Nat → Nat} {bad bad' : Nat → Prop}

theorem BitsKept.refl : BitsKept part bad s s := ⟨fun _ h => h.mono fun _ => .inl, id⟩

theorem BitsKept.trans (h : BitsKept part bad s t) (h' : BitsKept part bad' t u) :
    BitsKept part (fun j => bad j ∨ bad' j) s u :=
  ⟨fun X x => (h'.blocks _ (h.blocks X x)).mono fun _ => or_assoc.1, fun x => h'.inodes (h.inodes x)⟩

theorem BitsKept.mono (less : ∀ j, bad j → bad' j) (h : BitsKept part bad s t) : BitsKept part bad' s t :=
  ⟨fun X x => (h.blocks X x).mono fun j => Or.imp_right (less j), h.inodes⟩

theorem CacheOnly.bitsKept (h : CacheOnly s t) : BitsKept part bad s t :=
  ⟨fun X x => by rw [h.disk, h.blockBitmap]; exact x.mono fun _ => .inl, fun x => by rw [h.disk, h.inodeBitmap]; exact x⟩

theorem Steady.trans (h : Steady s t) (h' : Steady t u) : Steady s u := by
  refine ⟨Nat.le_trans h.next h'.next, fun a lt => ?_, fun i => (h'.slots i).trans (h.slots i), fun i => ?_⟩
  · rw [h'.numbers a (Nat.lt_of_lt_of_le lt h.next), h.numbers a lt]
  · rcases h'.flags i with e | e
    · rw [e]
      exact h.flags i
    · exact .inr e

theorem Browsed.steady (h : Browsed s t) : Steady s t := by
  refine ⟨h.next, fun a lt => ?_, fun i => by rw [h.fileTable], fun i => .inl (by rw [h.fileTable])⟩
  rw [h.inodes a lt]

/-- Changes that meet neither the slots nor the blocks of live inodes. -/
theorem FsInv.storage {B : Nat → Prop} (inv : FsInv part n s sh H) (inodes : ∀ a ∈ s.openInodes, t.inodes a = s.inodes a)
    (next : s.nextAddr ≤ t.nextAddr) (openInodes : t.openInodes = s.openInodes) (rootDir : t.rootDir = s.rootDir)
    (frame : DiskFrame part B (fun _ => False) s.disk t.disk)
    (data : ∀ m, sh.live m → ∀ lba, owned part s.disk m lba → ¬ B lba) (bits : ∀ i, s.blockBitmap.Set i → t.blockBitmap.Set i)
    (map : BlockMap part n t.blockBitmap) (inodeBitmap : t.inodeBitmap = s.inodeBitmap) :
    FsInv part n t sh H := by
  have low : ∀ m, sh.live m → m < 4096 := fun m live => Nat.lt_trans (inv.tree.low m live) (by decide)
  refine ⟨⟨?_, ?_, ?_⟩, fun m lt => ?_, fun a h => ?_⟩
  · exact inv.tree.frame (fun m live => frame.untouched (inv.tree.node m live) (low m live) id (data m live) fun i _ => bits i) map
  · exact inv.cache.storage inodes next openInodes rootDir fun m live => frame.slot_eq (low m live) id
  · rw [inodeBitmap]
    exact inv.len
  · rw [inodeBitmap]
    exact inv.bits m lt
  · rw [openInodes] at h
    rw [inodes a h]
    exact inv.alive a h

end Effects

section Slots

variable {fdTable fdTable' : Nat → Int}

theorem getFreeSlotInGlobal_some {ft : Nat → File} {i : Nat} (h : getFreeSlotInGlobal ft = some i) :
    3 ≤ i ∧ i < maxFileOpen ∧ (ft i).fdInode = .null := by
  have mem := List.mem_of_find?_eq_some h
  have free := List.find?_some h
  simp only [List.mem_range'_1, maxFileOpen] at mem
  simp only [decide_eq_true_eq] at free
  exact ⟨mem.1, by simp only [maxFileOpen]; omega, free⟩

theorem pcbFdInstall_cases {g : Nat} {r : Option Nat} (h : pcbFdInstall fdTable g = (r, fdTable')) :
    (r = none ∧ fdTable' = fdTable) ∨
      ∃ l, 3 ≤ l ∧ l < maxFilesOpenPerProc ∧ fdTable l = -1 ∧ r = some l ∧
        fdTable' = fun i => if i = l then (g : Int) else fdTable i := by
  simp only [pcbFdInstall] at h
  split at h
  · cases h
    exact .inl ⟨rfl, rfl⟩
  · rename_i l found
    cases h
    have mem := List.mem_of_find?_eq_some found
    have free := List.find?_some found
    simp only [List.mem_range'_1, maxFilesOpenPerProc] at mem
    simp only [decide_eq_true_eq] at free
    exact .inr ⟨l, mem.1, by simp only [maxFilesOpenPerProc]; omega, free, rfl, rfl⟩

end Slots

section Dirs

variable {part : Partition} {n m : Nat} {me : Option Nat} {s t : Fs} {sh : Shape} {H : Nat → Nat} {d : Dir}

/-- The handles when `struct dir` `d` is there too; `root_dir` is counted already. -/
def hold (H : Nat → Nat) (d : Dir) : Nat → Nat := if d.isRoot then H else bump H d.inode

/-- `d` is an open directory with number `q`. -/
structure DirAt (s : Fs) (sh : Shape) (d : Dir) (q : Nat) : Prop where
  mem : d.inode ∈ s.openInodes
  number : (s.inodes d.inode).iNo = q
  live : sh.live q
  dir : sh.dir q

theorem hold_le (a : Nat) : hold H d a ≤ H a + 1 := by
  rw [hold]
  split
  · omega
  · exact bump_le

theorem FsInv.rootAt (inv : FsInv part n s sh H) : DirAt s sh s.root 0 :=
  ⟨(inv.cache.held _).2 (.inr rfl), inv.cache.root, inv.tree.naming.top.1, inv.tree.naming.top.2.1⟩

/-- **`dir_open`** of a live directory. -/
theorem dirOpen_inv (inv : FsInv part n s sh H) (live : sh.live m) (dir : sh.dir m) (h : dirOpen part me s m = .ok (d, t)) :
    FsInv part n t sh (hold H d) ∧ Browsed s t ∧ DirAt t sh d m ∧ d.isRoot = false := by
  simp only [dirOpen, bind_ok, mustMalloc_ok, pure_ok, Prod.exists] at h
  obtain ⟨s1, ⟨-, rfl⟩, addr, s2, opened, h⟩ := h
  cases h
  obtain ⟨inv', browsed, mem, number, -⟩ := inodeOpen_inv inv.malloc live opened
  exact ⟨inv', browsed_malloc.trans browsed, ⟨mem, number, live, dir⟩, rfl⟩

theorem dirClose_core (inv : FsCore part n s sh (hold H d)) (room : H d.inode + 2 < 2 ^ 32) (h : dirClose me s d = .ok t) :
    FsCore part n t sh H ∧ Browsed s t := by
  simp only [dirClose] at h
  split at h
  · rename_i root
    rw [pure_ok] at h
    subst h
    rw [hold, if_pos root] at inv
    exact ⟨inv, .refl _⟩
  · rename_i other
    rw [hold, if_neg other] at inv
    obtain ⟨core, browsed, -⟩ := inodeClose_core inv room h
    exact ⟨core, browsed⟩

/-- **`dir_close`**. -/
theorem dirClose_inv (inv : FsInv part n s sh (hold H d)) (room : H d.inode + 2 < 2 ^ 32) (h : dirClose me s d = .ok t) :
    FsInv part n t sh H ∧ Browsed s t := by
  simp only [dirClose] at h
  split at h
  · rename_i root
    rw [pure_ok] at h
    subst h
    rw [hold, if_pos root] at inv
    exact ⟨inv, .refl _⟩
  · rename_i other
    rw [hold, if_neg other] at inv
    exact inodeClose_inv inv room h

end Dirs

end Sparrow
