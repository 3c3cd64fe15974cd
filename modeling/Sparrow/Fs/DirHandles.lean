import Sparrow.Fs.PathStrings
import Sparrow.Fs.ReadDir
import Sparrow.Userprog.Boot

/-!
# Directory handles

`sys_opendir`, `sys_readdir`, `sys_rewinddir` and `sys_closedir`. The place in the listing is in
the `struct dir`. A directory opened by its path gets one of its own each time, but for the path
`/` the calls return the address of the one `root_dir`, with whatever place it has: two handles
are independent unless both come from `/` (`handles_independent_iff`).
-/

namespace Sparrow
set_option autoImplicit false

/-- The system with the contents of each `struct dir`; pointer 0 is `&root_dir`. -/
structure DirSys where
  sys : Sys
  cursors : Nat → Cursor

/-- What a `struct dir *` points to. -/
def DirSys.dir (S : DirSys) (ptr : Nat) : Option Dir := S.sys.dir ptr

def DirSys.setCursor (S : DirSys) (ptr : Nat) (c : Cursor) : DirSys :=
  { S with cursors := fun i => if i = ptr then c else S.cursors i }

/-- `sys_opendir`: `dir_open` sets the place of a new `struct dir` to 0, `root_dir` keeps its own. -/
def openHandle (part : Partition) (pid : Nat) (S : DirSys) (name : List Byte) : Exec (Option Nat × DirSys) := do
  let (r, sys) ← sysOpendir part pid S.sys name
  match r with
  | none => return (none, { S with sys := sys })
  | some ptr =>
    if ptr = 0 then return (some ptr, { S with sys := sys })
    else return (some ptr, { S with sys := sys }.setCursor ptr ⟨0, (S.cursors ptr).dirBuf⟩)

/-- `sys_readdir`. -/
def sysReaddir (part : Partition) (pid : Nat) (S : DirSys) (ptr : Nat) : Exec (Option DirEntry × DirSys) := do
  let (e, c) ← readDirectory part pid S.sys ptr (S.cursors ptr)
  return (e, S.setCursor ptr c)

/-- `sys_rewinddir`. -/
def sysRewinddir (S : DirSys) (ptr : Nat) : Exec DirSys :=
  match S.dir ptr with
  | none => throw .undefined
  | some _ => return S.setCursor ptr { S.cursors ptr with dirPos := 0 }

/-- `sys_closedir`. -/
def closeHandle (pid : Nat) (S : DirSys) (ptr : Nat) : Exec DirSys := do
  let (_, sys) ← sysClosedir pid S.sys (some ptr)
  return { S with sys := sys }

/-- What is done with a handle. -/
inductive DirOp where
  | read
  | rewind
  | close
  deriving DecidableEq

/-- Two handles, the state, and for each of them what it returned since it was opened or rewound. -/
structure Shown where
  state : DirSys
  seen : Bool → List (Option DirEntry)

/-- One call on the handle `op.1`; it is made by the task `who op.1`. -/
def dirOp (part : Partition) (who ptr : Bool → Nat) (w : Shown) (op : Bool × DirOp) : Exec Shown :=
  match op.2 with
  | .read => do
    let (e, S) ← sysReaddir part (who op.1) w.state (ptr op.1)
    return ⟨S, Function.update w.seen op.1 (w.seen op.1 ++ [e])⟩
  | .rewind => do
    let S ← sysRewinddir w.state (ptr op.1)
    return ⟨S, Function.update w.seen op.1 []⟩
  | .close => do
    let S ← closeHandle (who op.1) w.state (ptr op.1)
    return ⟨S, w.seen⟩

/-- Calls on the two handles, one after another. -/
def dirOps (part : Partition) (who ptr : Bool → Nat) (w : Shown) (ops : List (Bool × DirOp)) : Exec Shown :=
  ops.foldlM (dirOp part who ptr) w

/-- A handle is not used once it is closed. -/
def LegalOps (ops : List (Bool × DirOp)) : Prop := ops.Pairwise fun a b => a.2 = .close → b.1 ≠ a.1

/-- However the calls on the two handles are interleaved, each handle returns what it returns when
the other one is not used. -/
def Independent (part : Partition) (who ptr : Bool → Nat) (S : DirSys) : Prop :=
  ∀ ops, LegalOps ops → ∀ h, ∃ w w', dirOps part who ptr ⟨S, fun _ => []⟩ ops = .ok w ∧
    dirOps part who ptr ⟨S, fun _ => []⟩ (ops.filter fun op => op.1 = h) = .ok w' ∧ w.seen h = w'.seen h

/-- The inodes of open directories are in the kernel pool, where `inode_open` puts them. -/
def KernelDirs (s : Fs) (sh : Shape) : Prop := ∀ a ∈ s.openInodes, sh.dir (s.inodes a).iNo → s.pool a = none

section Kernel

variable {part : Partition} {me : Option Nat} {s t : Fs} {sh : Shape}

theorem KernelDirs.close {a : Nat} (h : inodeClose me s a = .ok t) (kernel : KernelDirs s sh) : KernelDirs t sh := by
  obtain ⟨-, rfl⟩ := inodeClose_ok h
  intro a' mem dir
  have old : a' ∈ s.openInodes := by
    simp only [Fs.release] at mem
    split at mem
    · exact List.mem_of_mem_erase mem
    · exact mem
  refine kernel a' old ?_
  simp only [Fs.release, Fs.setInode] at dir
  split at dir
  · rename_i is
    rw [is]
    exact dir
  · exact dir

theorem kernelDirs_invariant : CacheInvariant part me (KernelDirs · sh) where
  opens opened kernel := by
    obtain ⟨mem, -, -, rfl⟩ | ⟨-, -, rfl, rfl⟩ := inodeOpen_ok opened
    · intro a old dir
      refine kernel a old ?_
      simp only [Fs.retain, Fs.setInode] at dir
      split at dir
      · rename_i is
        rw [is]
        exact dir
      · exact dir
    · intro a new dir
      simp only [Fs.load, Fs.setInode, List.mem_cons] at new dir ⊢
      split
      · rfl
      · rename_i old
        rw [if_neg old] at dir
        exact kernel a (new.resolve_left old) dir
  closes := KernelDirs.close
  mallocs kernel := kernel

/-- A directory in the kernel pool can be closed. -/
theorem dirClose_of_kernel {d : Dir} (kernel : s.pool d.inode = none) : ∃ t, dirClose me s d = .ok t := by
  rw [dirClose]
  split
  · exact ⟨s, rfl⟩
  · rw [inodeClose, defined_of (.inl kernel), ok_bind]
    dsimp only
    split
    · rw [assertThat_of (show (s.setInode d.inode _).pool d.inode = none from kernel)]
      exact ⟨_, rfl⟩
    · exact ⟨_, rfl⟩

end Kernel

section Opening

variable {part : Partition} {n m : Nat} {me : Option Nat} {s t : Fs} {sh : Shape} {H : Nat → Nat} {name : List Byte} {d : Dir}

/-- A directory the caller has a handle on, in a mounted partition. -/
structure DirHeld (part : Partition) (n : Nat) (s : Fs) (sh : Shape) (H : Nat → Nat) (d : Dir) (q : Nat) : Prop where
  inv : FsInv part n s sh (hold H d)
  at_ : DirAt s sh d q
  kernel : KernelDirs s sh

/-- **`sys_opendir`** with a path other than `/` opens the directory once more. -/
theorem opendirPath_opens (lay : Layout part n) (room : ∀ a, H a + 4 < 2 ^ 32) (inv : FsInv part n s sh H) (kernel : KernelDirs s sh)
    (noZero : 0#8 ∉ name) (notRoot : name ≠ [slash]) (h : opendirPath part me s name = .ok (some d, t)) :
    ∃ q, DirHeld part n t sh H d q ∧ Browsed s t ∧ d.isRoot = false := by
  simp only [opendirPath, bind_ok, assertThat_ok, exists_const, if_neg notRoot, Prod.exists] at h
  obtain ⟨-, r, s1, search, h⟩ := h
  have room2 : ∀ a, H a + 2 < 2 ^ 32 := fun a => by have := room a; omega
  obtain ⟨p, inv1, browsed1, dirAt, found⟩ := searchFile_inv lay room2 inv noZero search
  have kernel1 := kernelDirs_invariant.searchFile search kernel
  split at h
  case h_2 =>
    simp only [bind_ok, pure_ok] at h
    obtain ⟨s2, -, e⟩ := h
    cases e
  rename_i inodeNo number type
  simp only [bind_ok, pure_ok, Prod.exists] at h
  obtain ⟨d', s2, opened, s3, closed, e⟩ := h
  cases e
  -- what was found is a live directory
  have there : sh.live inodeNo ∧ sh.dir inodeNo := by
    cases found with
    | none no => rw [number] at no; cases no
    | file at_ isFile is fileType => rw [type] at fileType; cases fileType
    | dir at_ isDir is =>
      rw [number] at is
      cases is
      rw [← browsed1.disk, ← browsed1.blockBitmap] at at_
      obtain ⟨live, kind⟩ := inv1.itemDir dirAt.live dirAt.dir at_
      exact ⟨live, kind.1 isDir⟩
    | root is =>
      rw [number] at is
      cases is
      exact ⟨inv.tree.naming.top.1, inv.tree.naming.top.2.1⟩
  obtain ⟨inv2, browsed2, dirAt2, heap⟩ := dirOpen_inv inv1 there.1 there.2 opened
  have kernel2 := kernelDirs_invariant.dirOpen opened kernel1
  rw [hold_comm] at inv2
  have roomParent : hold H d r.parentDir.inode + 2 < 2 ^ 32 := by
    have := room r.parentDir.inode
    have := hold_le (H := H) (d := d) r.parentDir.inode
    omega
  obtain ⟨inv3, browsed3⟩ := closeParent_inv roomParent inv2 closed
  have mem : d.inode ∈ t.openInodes := by
    refine (inv3.cache.held _).2 (.inl ?_)
    rw [hold, if_neg (by simp [heap]), bump_self]
    omega
  refine ⟨inodeNo, ⟨inv3, ?_, dirClose_keeps KernelDirs.close closed kernel2⟩, browsed1.trans (browsed2.trans browsed3), heap⟩
  exact dirAt2.browsed browsed3 (inv2.cache.fresh _ dirAt2.mem) mem

/-- What `sys_opendir` did: the pointer `ptr` now stands for the directory `d`. -/
structure HandleOpened (S S' : DirSys) (name : List Byte) (ptr : Nat) (d : Dir) : Prop where
  browsed : Browsed S.sys.fs S'.sys.fs
  dir : S'.dir ptr = some d
  isRoot : d.isRoot = decide (ptr = 0)
  root : ptr = 0 ↔ name = [slash]
  next : S'.sys.nextDir = if ptr = 0 then S.sys.nextDir else S.sys.nextDir + 1
  new : ptr = 0 ∨ ptr = S.sys.nextDir
  old : ∀ p, p < S.sys.nextDir → S'.dir p = S.dir p
  cursors : ∀ p, p ≠ ptr → S'.cursors p = S.cursors p
  place : if ptr = 0 then S'.cursors ptr = S.cursors ptr else (S'.cursors ptr).dirPos = 0

/-- A mounted partition whose directories can be listed: the place of `root_dir` is at an entry. -/
structure Browsable (part : Partition) (n : Nat) (S : DirSys) (sh : Shape) (H : Nat → Nat) : Prop where
  inv : FsInv part n S.sys.fs sh H
  kernel : KernelDirs S.sys.fs sh
  pointers : 0 < S.sys.nextDir
  place : ∃ m, (S.cursors 0).dirPos = direntSize * m

variable {S S' : DirSys} {pid ptr : Nat}

theorem openHandle_ok (lay : Layout part n) (room : ∀ a, H a + 4 < 2 ^ 32) (b : Browsable part n S sh H) (noZero : 0#8 ∉ name)
    (h : openHandle part pid S name = .ok (some ptr, S')) :
    ∃ d q, HandleOpened S S' name ptr d ∧ DirHeld part n S'.sys.fs sh H d q := by
  simp only [openHandle, sysOpendir, bind_ok, Prod.exists] at h
  obtain ⟨r, σ, ⟨r', s, opened, h1⟩, h2⟩ := h
  cases r' with
  | none =>
    simp only [pure_ok] at h1
    cases h1
    simp only [pure_ok] at h2
    cases h2
  | some d =>
  by_cases isRoot : name = [slash]
  · -- `&root_dir`
    simp only [opendirPath, isRoot, if_pos, bind_ok, assertThat_ok, exists_const, pure_ok] at opened
    cases opened.2
    have h1 : (Except.ok (some 0, S.sys) : Exec (Option Nat × Sys)) = .ok (r, σ) := h1
    cases h1
    simp only [if_pos, pure_ok] at h2
    cases h2
    refine ⟨S.sys.fs.root, 0, ⟨.refl _, rfl, rfl, by simp [isRoot], rfl, .inl rfl, fun _ _ => rfl, fun _ _ => rfl, rfl⟩, ?_⟩
    exact ⟨b.inv, b.inv.rootAt, b.kernel⟩
  · obtain ⟨q, held, browsed, heap⟩ := opendirPath_opens lay room b.inv b.kernel noZero isRoot opened
    simp only [heap, Bool.false_eq_true, if_false, pure_ok] at h1
    cases h1
    have pos := b.pointers
    have ne : S.sys.nextDir ≠ 0 := by omega
    simp only [if_neg ne, pure_ok] at h2
    cases h2
    refine ⟨d, q, ⟨browsed, ?_, by rw [heap]; simp [ne], by simp [ne, isRoot], (if_neg ne).symm, .inr rfl, fun p lt => ?_,
      fun p other => if_neg other, ?_⟩, held⟩
    · simp [DirSys.dir, Sys.dir, DirSys.setCursor, ne]
    · have other : p ≠ S.sys.nextDir := by omega
      simp only [DirSys.dir, Sys.dir, DirSys.setCursor, Fs.root, browsed.rootDir]
      rw [List.lookup_cons, beq_false_of_ne other]
    · rw [if_neg ne]
      simp [DirSys.setCursor]

end Opening

section Use

variable {part : Partition} {n pid : Nat} {sh : Shape} {H : Nat → Nat} {S : DirSys} {ptr : Bool → Nat} {d : Bool → Dir}
  {q m : Bool → Nat} {E : Bool → List DirEntry} {opened : Bool → Bool}

/-- A directory of a consistent partition can be listed. -/
theorem listable_of_dirAt {s : Fs} {d : Dir} {q : Nat} (lay : Layout part n) (inv : FsInv part n s sh H) (at_ : DirAt s sh d q) :
    Listable part (s.vnode d.inode) := by
  obtain ⟨wf, sized, -⟩ := inv.dirWf at_
  exact DirSound.listable lay ⟨inv.tree.map, wf.slots, sized⟩

/-- **`sys_readdir`** returns the entry at the handle's place and moves only that. -/
theorem sysReaddir_returns (pid : Nat) {p k : Nat} {d : Dir} {q : Nat} {buf : Image} (lay : Layout part n)
    (inv : FsInv part n S.sys.fs sh H)
    (at_ : DirAt S.sys.fs sh d q) (kernel : KernelDirs S.sys.fs sh) (is : S.dir p = some d)
    (place : S.cursors p = ⟨direntSize * k, buf⟩) :
    ∃ buf', sysReaddir part pid S p = .ok ((liveEntries (S.sys.fs.vnode d.inode))[k]?,
      S.setCursor p ⟨direntSize * nextEntry (liveEntries (S.sys.fs.vnode d.inode)).length k, buf'⟩) := by
  obtain ⟨buf', read⟩ := (listable_of_dirAt lay inv at_).dirRead k buf
  have pool : S.sys.fs.pool d.inode = none := kernel d.inode at_.mem (by rw [at_.number]; exact at_.dir)
  refine ⟨buf', ?_⟩
  have is' : S.sys.dir p = some d := is
  simp only [sysReaddir, readDirectory, is', place,
    defined_of (show Reachable (S.sys.heapOf pid) S.sys.fs d.inode ∧ _ from ⟨.inl pool, at_.mem⟩),
    ok_bind]
  rw [show dirRead part S.sys.fs.disk (S.sys.fs.inodes d.inode) ⟨direntSize * k, buf⟩ = _ from read]
  rfl

/-- The handles on inodes while some of the two directories are open. -/
def heldBy (H : Nat → Nat) (d : Bool → Dir) (opened : Bool → Bool) : Nat → Nat :=
  let H := if opened false then hold H (d false) else H
  if opened true then hold H (d true) else H

theorem heldBy_close {h : Bool} (isOpen : opened h = true) :
    heldBy H d opened = hold (heldBy H d (Function.update opened h false)) (d h) := by
  cases h with
  | false =>
    by_cases other : opened true = true
    · simp [heldBy, isOpen, other, hold_comm (d false)]
    · simp [heldBy, isOpen, other]
  | true => simp [heldBy, isOpen]

theorem heldBy_le (a : Nat) : heldBy H d opened a ≤ H a + 2 := by
  have first := hold_le (H := H) (d := d false) a
  simp only [heldBy]
  split
  · refine Nat.le_trans (hold_le a) ?_
    split <;> omega
  · split <;> omega

/-- The two handles and their places: the handle `h` stands before the entry `m h` of its
directory, unless it is closed. -/
structure Browsing (part : Partition) (n : Nat) (sh : Shape) (H : Nat → Nat) (ptr : Bool → Nat) (d : Bool → Dir) (q : Bool → Nat)
    (E : Bool → List DirEntry) (opened : Bool → Bool) (m : Bool → Nat) (S : DirSys) : Prop where
  inv : FsInv part n S.sys.fs sh (heldBy H d opened)
  kernel : KernelDirs S.sys.fs sh
  dir : ∀ h, opened h = true → S.dir (ptr h) = some (d h)
  at_ : ∀ h, opened h = true → DirAt S.sys.fs sh (d h) (q h)
  entries : ∀ h, opened h = true → liveEntries (S.sys.fs.vnode (d h).inode) = E h
  place : ∀ h, opened h = true → ∃ buf, S.cursors (ptr h) = ⟨direntSize * m h, buf⟩

/-- What a call does with the place of its handle and with what was returned. -/
def showOp (E : List DirEntry) (x : Nat × List (Option DirEntry)) : DirOp → Nat × List (Option DirEntry)
  | .read => (nextEntry E.length x.1, x.2 ++ [E[x.1]?])
  | .rewind => (0, [])
  | .close => x

theorem ptr_ne (apart : ptr false ≠ ptr true) {h h' : Bool} (other : h' ≠ h) : ptr h' ≠ ptr h := by
  cases h <;> cases h'
  · exact absurd rfl other
  · exact apart.symm
  · exact apart
  · exact absurd rfl other

/-- A handle is put at another place; the other one stays where it is. -/
theorem Browsing.setCursor (browsing : Browsing part n sh H ptr d q E opened m S) (apart : ptr false ≠ ptr true) (h : Bool) (k : Nat)
    (buf : Image) : Browsing part n sh H ptr d q E opened (Function.update m h k) (S.setCursor (ptr h) ⟨direntSize * k, buf⟩) := by
  refine ⟨browsing.inv, browsing.kernel, browsing.dir, browsing.at_, browsing.entries, fun h' isOpen => ?_⟩
  by_cases same : h' = h
  · subst same
    exact ⟨buf, by simp [DirSys.setCursor]⟩
  · have other := ptr_ne apart same
    rw [Function.update_of_ne same]
    simp only [DirSys.setCursor, if_neg other]
    exact browsing.place h' isOpen

theorem lookup_filter_ne {α : Type} {p k : Nat} (ne : p ≠ k) (l : List (Nat × α)) :
    (l.filter fun x => x.1 ≠ k).lookup p = l.lookup p := by
  induction l with
  | nil => rfl
  | cons x rest ih =>
    by_cases drop : x.1 = k
    · rw [List.filter_cons_of_neg (by simpa using drop), ih]
      obtain ⟨i, v⟩ := x
      rw [List.lookup_cons, beq_false_of_ne (fun e => ne (e.trans drop))]
    · obtain ⟨i, v⟩ := x
      rw [List.filter_cons_of_pos (by simpa using drop), List.lookup_cons, List.lookup_cons, ih]

/-- **`sys_closedir`** leaves the other handle as it is. -/
theorem Browsing.close (pid : Nat) (browsing : Browsing part n sh H ptr d q E opened m S) (apart : ptr false ≠ ptr true)
    (isRoot : ∀ h, (d h).isRoot = decide (ptr h = 0)) (room : ∀ a, H a + 4 < 2 ^ 32) {h : Bool} (isOpen : opened h = true) :
    ∃ S', closeHandle pid S (ptr h) = .ok S' ∧
      Browsing part n sh H ptr d q E (Function.update opened h false) m S' := by
  have inv := browsing.inv
  rw [heldBy_close isOpen] at inv
  have still : ∀ {h'}, Function.update opened h false h' = true → h' ≠ h ∧ opened h' = true := by
    intro h' isOpen'
    by_cases same : h' = h
    · rw [same, Function.update_self] at isOpen'
      cases isOpen'
    · rw [Function.update_of_ne same] at isOpen'
      exact ⟨same, isOpen'⟩
  by_cases root : ptr h = 0
  · -- the root directory is not closed
    refine ⟨S, by simp [closeHandle, sysClosedir, root, pure, Except.pure], ?_⟩
    rw [hold, if_pos (by rw [isRoot]; simpa using root)] at inv
    exact ⟨inv, browsing.kernel, fun h' o => browsing.dir h' (still o).2, fun h' o => browsing.at_ h' (still o).2,
      fun h' o => browsing.entries h' (still o).2, fun h' o => browsing.place h' (still o).2⟩
  · have at_ := browsing.at_ h isOpen
    have is := browsing.dir h isOpen
    rw [DirSys.dir, Sys.dir, if_neg root] at is
    have pool : S.sys.fs.pool (d h).inode = none := browsing.kernel _ at_.mem (by rw [at_.number]; exact at_.dir)
    obtain ⟨t, closed⟩ : ∃ t, dirClose (S.sys.heapOf pid) S.sys.fs (d h) = .ok t := dirClose_of_kernel pool
    have roomHere : heldBy H d (Function.update opened h false) (d h).inode + 2 < 2 ^ 32 := by
      have : heldBy H d (Function.update opened h false) (d h).inode ≤ H (d h).inode + 2 := heldBy_le _
      have := room (d h).inode
      omega
    obtain ⟨inv', browsed⟩ := dirClose_inv inv roomHere closed
    refine ⟨⟨{ S.sys with fs := t, dirs := S.sys.dirs.filter fun x => x.1 ≠ ptr h }, S.cursors⟩, ?_, ?_⟩
    · simp [closeHandle, sysClosedir, root, is, closed, pure, Except.pure]
    · refine ⟨inv', dirClose_keeps KernelDirs.close closed browsing.kernel, fun h' o => ?_, fun h' o => ?_, fun h' o => ?_,
        fun h' o => browsing.place h' (still o).2⟩
      · have other := ptr_ne apart (still o).1
        rw [← browsing.dir h' (still o).2, DirSys.dir, DirSys.dir, Sys.dir, Sys.dir, lookup_filter_ne other, Fs.root, Fs.root,
          browsed.rootDir]
      · have old := browsing.at_ h' (still o).2
        refine old.browsed browsed (browsing.inv.cache.fresh _ old.mem) ((inv'.cache.held _).2 ?_)
        by_cases rootToo : (d h').isRoot = true
        · right
          have same := browsing.dir h' (still o).2
          rw [DirSys.dir, Sys.dir, if_pos (by simpa [isRoot] using rootToo), Option.some.injEq] at same
          rw [← same, browsed.rootDir]
          rfl
        · left
          rw [heldBy_close o, hold, if_neg rootToo, bump_self]
          omega
      · have old := browsing.at_ h' (still o).2
        rw [← browsing.entries h' (still o).2]
        rw [Fs.vnode, browsed.inodes _ (browsing.inv.cache.fresh _ old.mem), browsed.disk, browsed.blockBitmap]
        rfl

/-- **One call** on a handle that is open returns; it moves that handle and shows what is at its place. -/
theorem Browsing.step (browsing : Browsing part n sh H ptr d q E opened m S) (lay : Layout part n) (apart : ptr false ≠ ptr true)
    (isRoot : ∀ h, (d h).isRoot = decide (ptr h = 0)) (room : ∀ a, H a + 4 < 2 ^ 32) (who : Bool → Nat) {h : Bool} (op : DirOp)
    (isOpen : opened h = true) (seen : Bool → List (Option DirEntry)) :
    ∃ S', dirOp part who ptr ⟨S, seen⟩ (h, op) = .ok ⟨S', Function.update seen h (showOp (E h) (m h, seen h) op).2⟩ ∧
      Browsing part n sh H ptr d q E (if op = .close then Function.update opened h false else opened)
        (Function.update m h (showOp (E h) (m h, seen h) op).1) S' := by
  obtain ⟨buf, place⟩ := browsing.place h isOpen
  cases op with
  | read =>
    obtain ⟨buf', read⟩ := sysReaddir_returns (who h) lay browsing.inv (browsing.at_ h isOpen) browsing.kernel
      (browsing.dir h isOpen) place
    rw [browsing.entries h isOpen] at read
    refine ⟨_, ?_, browsing.setCursor apart h _ buf'⟩
    simp only [dirOp, read, ok_bind]
    rfl
  | rewind =>
    refine ⟨_, ?_, browsing.setCursor apart h 0 buf⟩
    simp only [dirOp, sysRewinddir, browsing.dir h isOpen, place]
    rfl
  | close =>
    obtain ⟨S', closed, after⟩ := browsing.close (who h) apart isRoot room isOpen
    refine ⟨S', ?_, ?_⟩
    · simp only [dirOp, closed, ok_bind, showOp, Function.update_eq_self]
      rfl
    · simp only [showOp, Function.update_eq_self, if_pos]
      exact after

/-- What the calls on one handle do with its place and with what was returned. -/
def showOps (E : List DirEntry) (x : Nat × List (Option DirEntry)) (ops : List DirOp) : Nat × List (Option DirEntry) :=
  ops.foldl (showOp E) x

/-- The calls on the handle `h`. -/
def callsOn (h : Bool) (ops : List (Bool × DirOp)) : List DirOp := (ops.filter fun op => op.1 = h).map Prod.snd

/-- **A run** of calls shows through each handle what the calls on that handle show. -/
theorem Browsing.run (lay : Layout part n) (apart : ptr false ≠ ptr true) (isRoot : ∀ h, (d h).isRoot = decide (ptr h = 0))
    (room : ∀ a, H a + 4 < 2 ^ 32) (who : Bool → Nat) (ops : List (Bool × DirOp)) :
    ∀ {S : DirSys} {opened : Bool → Bool} {m : Bool → Nat} (seen : Bool → List (Option DirEntry)),
      Browsing part n sh H ptr d q E opened m S → LegalOps ops → (∀ op ∈ ops, opened op.1 = true) →
      ∃ w, dirOps part who ptr ⟨S, seen⟩ ops = .ok w ∧ ∀ h, w.seen h = (showOps (E h) (m h, seen h) (callsOn h ops)).2 := by
  induction ops with
  | nil => exact fun seen _ _ _ => ⟨_, rfl, fun _ => rfl⟩
  | cons op rest ih =>
    intro S opened m seen browsing legal isOpen
    obtain ⟨h, op⟩ := op
    obtain ⟨later, legal⟩ := List.pairwise_cons.1 legal
    obtain ⟨S', first, after⟩ := browsing.step lay apart isRoot room who op (isOpen _ List.mem_cons_self) seen
    have isOpen' : ∀ op' ∈ rest, (if op = .close then Function.update opened h false else opened) op'.1 = true := by
      intro op' mem
      have was := isOpen op' (List.mem_cons_of_mem _ mem)
      split
      · rename_i closes
        rw [Function.update_of_ne (later op' mem closes)]
        exact was
      · exact was
    obtain ⟨w, ran, shows⟩ := ih _ after legal isOpen'
    refine ⟨w, by rw [dirOps, List.foldlM_cons, first, ok_bind]; exact ran, fun h' => ?_⟩
    rw [shows h', callsOn, callsOn]
    by_cases same : h = h'
    · subst same
      rw [List.filter_cons_of_pos (by simp), Function.update_self, Function.update_self]
      rfl
    · rw [List.filter_cons_of_neg (by simpa using same), Function.update_of_ne (Ne.symm same),
        Function.update_of_ne (Ne.symm same)]

/-- Two handles at different addresses are independent. -/
theorem Browsing.independent (browsing : Browsing part n sh H ptr d q E (fun _ => true) m S) (lay : Layout part n)
    (apart : ptr false ≠ ptr true) (isRoot : ∀ h, (d h).isRoot = decide (ptr h = 0)) (room : ∀ a, H a + 4 < 2 ^ 32)
    (who : Bool → Nat) : Independent part who ptr S := by
  intro ops legal h
  obtain ⟨w, ran, shows⟩ := Browsing.run lay apart isRoot room who ops _ browsing legal fun _ _ => rfl
  obtain ⟨w', ran', shows'⟩ := Browsing.run lay apart isRoot room who (ops.filter fun op => op.1 = h) _ browsing
    (legal.filter _) fun _ _ => rfl
  refine ⟨w, w', ran, ran', ?_⟩
  rw [shows h, shows' h, callsOn, callsOn, List.filter_filter]
  simp

/-- No entry of a directory is listed twice. -/
theorem liveEntries_nodup {s : Fs} {d : Dir} {q : Nat} (inv : FsInv part n s sh H) (at_ : DirAt s sh d q) :
    (liveEntries (s.vnode d.inode)).Nodup := by
  obtain ⟨wf, -⟩ := inv.dirWf at_
  refine List.Nodup.map_on ?_ livePositions_nodup
  intro x memX y memY same
  obtain ⟨a, atX⟩ := wf.slots.live.1 (mem_livePositions.1 memX)
  obtain ⟨b, atY⟩ := wf.slots.live.1 (mem_livePositions.1 memY)
  have items : a = b := Item.entry_inj (atX.entry.symm.trans (same.trans atY.entry))
  obtain ⟨k, j⟩ := wf.names _ _ _ _ _ _ atX atY (congrArg Item.name items)
  exact Prod.ext k j

/-- The first two entries of a directory, which has `.` and `..`, are not the same. -/
theorem first_two {s : Fs} {d : Dir} {q : Nat} (inv : FsInv part n s sh H) (at_ : DirAt s sh d q) :
    1 < (liveEntries (s.vnode d.inode)).length ∧
      (liveEntries (s.vnode d.inode))[0]? ≠ (liveEntries (s.vnode d.inode))[1]? := by
  obtain ⟨wf, -⟩ := inv.dirWf at_
  have two : 1 < (liveEntries (s.vnode d.inode)).length := by
    rw [liveEntries, List.length_map, livePositions_length]
    exact Finset.card_le_card wf.slots.dots_live
  refine ⟨two, fun same => ?_⟩
  rw [List.getElem?_eq_getElem (by omega), List.getElem?_eq_getElem two, Option.some.injEq,
    (liveEntries_nodup inv at_).getElem_inj_iff] at same
  omega

/-- Two handles on the one `root_dir` are not independent: a read through one of them moves the
other. -/
theorem shared_root (lay : Layout part n) (inv : FsInv part n S.sys.fs sh H) (kernel : KernelDirs S.sys.fs sh) (who : Bool → Nat)
    (zero : ∀ h, ptr h = 0) : ¬ Independent part who ptr S := by
  intro independent
  obtain ⟨two, differ⟩ := first_two inv inv.rootAt
  -- a read of `root_dir` at entry `k`, whatever the places of the handles
  have read : ∀ (h : Bool) (T : DirSys) (k : Nat), T.sys = S.sys → (T.cursors 0).dirPos = direntSize * k →
      ∃ T', (∀ seen, dirOp part who ptr ⟨T, seen⟩ (h, .read) =
        .ok ⟨T', Function.update seen h (seen h ++ [(liveEntries (S.sys.fs.vnode S.sys.fs.root.inode))[k]?])⟩) ∧ T'.sys = S.sys ∧
        (T'.cursors 0).dirPos = direntSize * nextEntry (liveEntries (S.sys.fs.vnode S.sys.fs.root.inode)).length k := by
    intro h T k same place
    obtain ⟨sys, cursors⟩ := T
    subst same
    have cursor : (⟨S.sys, cursors⟩ : DirSys).cursors 0 = ⟨direntSize * k, (cursors 0).dirBuf⟩ := by rw [← place]
    obtain ⟨buf, read⟩ := sysReaddir_returns (S := ⟨S.sys, cursors⟩) (who h) lay inv inv.rootAt kernel rfl cursor
    refine ⟨DirSys.setCursor ⟨S.sys, cursors⟩ 0
      ⟨direntSize * nextEntry (liveEntries (S.sys.fs.vnode S.sys.fs.root.inode)).length k, buf⟩, fun seen => ?_, rfl, rfl⟩
    simp only [dirOp, zero, read, ok_bind]
    rfl
  have rewind : ∀ h, dirOp part who ptr ⟨S, fun _ => []⟩ (h, .rewind) =
      .ok ⟨S.setCursor 0 { S.cursors 0 with dirPos := 0 }, Function.update (fun _ => []) h []⟩ := by
    intro h
    simp only [dirOp, sysRewinddir, zero, DirSys.dir, Sys.dir, if_pos]
    rfl
  have start : ((S.setCursor 0 { S.cursors 0 with dirPos := 0 }).cursors 0).dirPos = direntSize * 0 := by simp [DirSys.setCursor]
  have legal : LegalOps [(false, .rewind), (true, .read), (false, .read)] := by
    simp [LegalOps]
  obtain ⟨w, w', ran, ran', same⟩ := independent _ legal false
  obtain ⟨T1, first, sys1, place1⟩ := read true (S.setCursor 0 { S.cursors 0 with dirPos := 0 }) 0 rfl start
  obtain ⟨T2, second, -, -⟩ := read false T1 1 sys1 (by rw [place1, nextEntry, if_pos (by omega)])
  obtain ⟨T3, alone, -, -⟩ := read false (S.setCursor 0 { S.cursors 0 with dirPos := 0 }) 0 rfl start
  have shown : w.seen false = [(liveEntries (S.sys.fs.vnode S.sys.fs.root.inode))[1]?] := by
    rw [dirOps, List.foldlM_cons, rewind, ok_bind, List.foldlM_cons, first, ok_bind, List.foldlM_cons, second, ok_bind,
      List.foldlM_nil, pure_ok] at ran
    rw [← ran]
    simp
  have shown' : w'.seen false = [(liveEntries (S.sys.fs.vnode S.sys.fs.root.inode))[0]?] := by
    have only : [(false, DirOp.rewind), (true, .read), (false, .read)].filter (fun op => op.1 = false) =
        [(false, .rewind), (false, .read)] := by decide
    rw [only, dirOps, List.foldlM_cons, rewind, ok_bind, List.foldlM_cons, alone, ok_bind, List.foldlM_nil, pure_ok] at ran'
    rw [← ran']
    simp
  rw [shown, shown', List.cons.injEq] at same
  exact differ same.1.symm

end Use

/-- The mounted partition with one more directory open. -/
theorem HandleOpened.browsable {part : Partition} {n : Nat} {sh : Shape} {H : Nat → Nat} {S S' : DirSys} {name : List Byte} {ptr q : Nat}
    {d : Dir} (opened : HandleOpened S S' name ptr d) (held : DirHeld part n S'.sys.fs sh H d q) (b : Browsable part n S sh H) :
    Browsable part n S' sh (hold H d) := by
  have pointers : 0 < S'.sys.nextDir := by
    have := b.pointers
    rw [opened.next]
    split <;> omega
  obtain ⟨m, place⟩ := b.place
  refine ⟨held.inv, held.kernel, pointers, m, ?_⟩
  by_cases root : ptr = 0
  · have same := opened.place
    rw [if_pos root, root] at same
    rw [same, place]
  · rw [opened.cursors 0 (Ne.symm root), place]

/-- **Directory handles.** Two handles from `sys_opendir` are independent just when they do not both
come from the path `/`, for which both are `&root_dir`. -/
theorem handles_independent_iff {part : Partition} {n : Nat} {sh : Shape} {H : Nat → Nat} {S S₁ S₂ : DirSys} {who : Bool → Nat}
    {name₁ name₂ : List Byte} {p₁ p₂ : Nat} (lay : Layout part n) (room : ∀ a, H a + 5 < 2 ^ 32) (b : Browsable part n S sh H)
    (noZero₁ : 0#8 ∉ name₁) (noZero₂ : 0#8 ∉ name₂) (open₁ : openHandle part (who false) S name₁ = .ok (some p₁, S₁))
    (open₂ : openHandle part (who true) S₁ name₂ = .ok (some p₂, S₂)) :
    Independent part who (fun h => if h then p₂ else p₁) S₂ ↔ ¬ (name₁ = [slash] ∧ name₂ = [slash]) := by
  have room₁ : ∀ a, H a + 4 < 2 ^ 32 := fun a => by have := room a; omega
  obtain ⟨d₁, q₁, opened₁, held₁⟩ := openHandle_ok lay room₁ b noZero₁ open₁
  have b₁ := opened₁.browsable held₁ b
  have room₂ : ∀ a, hold H d₁ a + 4 < 2 ^ 32 := fun a => by
    have := room a
    have := hold_le (H := H) (d := d₁) a
    omega
  obtain ⟨d₂, q₂, opened₂, held₂⟩ := openHandle_ok lay room₂ b₁ noZero₂ open₂
  have b₂ := opened₂.browsable held₂ b₁
  constructor
  · rintro independent ⟨root₁, root₂⟩
    refine shared_root lay held₂.inv held₂.kernel who (fun h => ?_) independent
    cases h
    · exact opened₁.root.2 root₁
    · exact opened₂.root.2 root₂
  · intro notBoth
    have below : p₁ < S₁.sys.nextDir := by
      have := b.pointers
      rw [opened₁.next]
      rcases opened₁.new with is | is <;> split <;> omega
    have apart : p₁ ≠ p₂ := by
      intro same
      rcases opened₂.new with is | is
      · exact notBoth ⟨opened₁.root.1 (same.trans is), opened₂.root.1 is⟩
      · omega
    -- a handle stands before an entry: where `root_dir` stands, or at the start
    have stands : ∀ (T T' : DirSys) (name : List Byte) (p : Nat) (d : Dir), HandleOpened T T' name p d →
        (∃ m, (T.cursors 0).dirPos = direntSize * m) → ∃ m, (T'.cursors p).dirPos = direntSize * m := by
      rintro T T' name p d opened ⟨m, place⟩
      have here := opened.place
      by_cases root : p = 0
      · rw [if_pos root, root] at here
        exact ⟨m, by rw [root, here, place]⟩
      · rw [if_neg root] at here
        exact ⟨0, here⟩
    obtain ⟨m₁, place₁⟩ := stands _ _ _ _ _ opened₁ b.place
    obtain ⟨m₂, place₂⟩ := stands _ _ _ _ _ opened₂ b₁.place
    rw [← opened₂.cursors p₁ apart] at place₁
    have browsing : Browsing part n sh H (fun h => if h then p₂ else p₁) (fun h => if h then d₂ else d₁)
        (fun h => if h then q₂ else q₁) (fun h => liveEntries (S₂.sys.fs.vnode (if h then d₂ else d₁).inode)) (fun _ => true)
        (fun h => if h then m₂ else m₁) S₂ := by
      refine ⟨by simpa [heldBy] using held₂.inv, held₂.kernel, fun h _ => ?_, fun h _ => ?_, fun _ _ => rfl, fun h _ => ?_⟩
      · cases h
        · exact (opened₂.old p₁ below).trans opened₁.dir
        · exact opened₂.dir
      · cases h
        · exact held₁.at_.hold held₁.inv held₂.inv opened₂.browsed
        · exact held₂.at_
      · cases h
        · exact ⟨_, congrArg (Cursor.mk · _) place₁⟩
        · exact ⟨_, congrArg (Cursor.mk · _) place₂⟩
    refine browsing.independent lay (by simpa using apart) (fun h => ?_) room₁ who
    cases h
    · exact opened₁.isRoot
    · exact opened₂.isRoot

section Examples

/-- The system as it starts, its directories included. -/
def bootDirs (s : Fs) : DirSys := ⟨bootSys s, fun _ => ⟨0, zeros⟩⟩

theorem bootDirs_browsable {part : Partition} {s : Fs} (h : formatAndMount (fun _ => 0#8) 1 620 = .ok (part, s)) :
    Layout part 8 ∧ Browsable part 8 (bootDirs s) .root fun _ => 0 := by
  obtain ⟨lay, disk, fresh, is⟩ := formatAndMount_ok (by decide) (show formatSizes 620 = .ok (1, 8) from rfl) (by decide) h
  refine ⟨lay, (formatAndMount_inv (by decide) (show formatSizes 620 = .ok (1, 8) from rfl) (by decide) h).2, ?_, Nat.one_pos,
    0, rfl⟩
  intro a mem _
  have one : (bootDirs s).sys.fs.openInodes = [0] := by rw [is]; rfl
  rw [one, List.mem_singleton] at mem
  rw [mem, is]
  rfl

/-- One handle from `/` and one from `/.` on a partition just formatted. -/
theorem handles_independent_small : ∃ part s S, formatAndMount (fun _ => 0#8) 1 620 = .ok (part, s) ∧
    openHandle part 1 (bootDirs s) [slash] = .ok (some 0, bootDirs s) ∧
    openHandle part 1 (bootDirs s) [slash, 0x2e#8] = .ok (some 1, S) ∧
    Independent part (fun _ => 1) (fun h => if h then 1 else 0) S := by
  have ran : returns (formatAndMount (fun _ => 0#8) 1 620) (fun x =>
      returns (openHandle x.1 1 (bootDirs x.2) [slash, 0x2e#8]) fun y => decide (y.1 = some 1)) = true := by decide
  obtain ⟨⟨part, s⟩, formatted, ran⟩ := returns_true.1 ran
  obtain ⟨⟨p, S⟩, open₂, is⟩ := returns_true.1 ran
  have is : p = some 1 := of_decide_eq_true is
  subst is
  have open₁ : openHandle part 1 (bootDirs s) [slash] = .ok (some 0, bootDirs s) := rfl
  obtain ⟨lay, browsable⟩ := bootDirs_browsable formatted
  refine ⟨part, s, S, formatted, open₁, open₂, ?_⟩
  have iff : Independent part (fun _ => 1) (fun h => if h then 1 else 0) S ↔ ¬ ([slash] = [slash] ∧ [slash, 0x2e#8] = [slash]) :=
    handles_independent_iff lay (fun _ => by decide) browsable (by decide) (by decide) open₁ open₂
  exact iff.2 (by decide)

/-- Two handles from `/`. -/
theorem rootHandles_shared : ∃ part s, formatAndMount (fun _ => 0#8) 1 620 = .ok (part, s) ∧
    openHandle part 1 (bootDirs s) [slash] = .ok (some 0, bootDirs s) ∧
    ¬ Independent part (fun _ => 1) (fun _ => 0) (bootDirs s) := by
  obtain ⟨part, s, formatted⟩ := exists_smallPartition
  obtain ⟨lay, browsable⟩ := bootDirs_browsable formatted
  exact ⟨part, s, formatted, rfl, shared_root lay browsable.inv browsable.kernel _ fun _ => rfl⟩

end Examples

end Sparrow
