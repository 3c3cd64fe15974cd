import Sparrow.Fs.Lookup

/-!
# The path of the working directory

`sys_getcwd` climbs from the working directory to the root through the entries `..`. When it
starts at a live directory it stays at live directories, whose first block holds these
entries, and no assertion on the way fails (`sysGetcwd_ensures`). Each name makes the path longer, so
its buffer bounds the climb (`climb_enough`).
-/

namespace Sparrow
set_option autoImplicit false

section Inodes

variable {part : Partition} {n m : Nat} {me : Option Nat} {s : Fs} {sh : Shape} {H : Nat → Nat}

theorem ensures_findOpen (f : Nat) : ∀ l : List Nat, Ensures (findOpen me s f l) fun _ => True := by
  intro l
  induction l with
  | nil => exact ensures_pure trivial
  | cons a rest ih =>
    rw [findOpen]
    apply ensures_defined.bind
    intro _ _
    split
    · exact ensures_pure trivial
    · exact ih

theorem ensures_mustMalloc : Ensures (mustMalloc s) fun _ => True := ensures_defined.bind fun _ _ => ensures_pure trivial

/-- `inode_open` asserts nothing but that the number is one. -/
theorem inodeOpen_no_assert (fits : TableFits part) (lt : m < 4096) : inodeOpen part me s m ≠ .error .assert := by
  obtain ⟨pos, located⟩ := inodeLocate_of_lt part lt
  have transfer := (inodeLocate_ok located).transfer fits
  suffices Ensures (inodeOpen part me s m) fun _ => True from this.1
  apply (ensures_findOpen m _).bind
  rintro (_ | a) _
  · simp only [located, ok_bind]
    apply ensures_mustMalloc.bind
    intro _ _
    apply ensures_mustMalloc.bind
    intro _ _
    rw [ideRead_of transfer]
    exact ensures_pure trivial
  · exact ensures_pure trivial

/-- An inode that was just opened can be closed: it was open before, or it was read into the
kernel pool. -/
theorem inodeClose_no_assert {addr : Nat} {t : Fs} (inv : FsInv part n s sh H) (room : H addr + 2 < 2 ^ 32)
    (h : inodeOpen part me s m = .ok (addr, t)) : inodeClose me t addr ≠ .error .assert := by
  suffices Ensures (inodeClose me t addr) fun _ => True from this.1
  apply ensures_defined.bind
  intro _ _
  dsimp only
  split
  · rename_i zero
    refine (ensures_assertThat ?_).bind fun _ _ => ensures_pure trivial
    obtain ⟨mem, -, -, rfl⟩ | ⟨-, -, rfl, rfl⟩ := inodeOpen_ok h
    · -- there is another handle
      exfalso
      have count := inv.cache.counts addr mem
      have held := (inv.cache.held addr).1 mem
      simp only [Fs.retain, Fs.setInode, if_true] at zero
      rw [subU32_of_le (by omega) (by split at count <;> omega)] at zero
      split at count <;> omega
    · exact if_pos rfl
  · exact ensures_pure trivial

/-- A live directory is opened, read and closed again. -/
theorem ensures_opened {α : Type} {Q : α → Prop} {k : Nat × Fs → Exec α} (lay : Layout part n) (room : ∀ a, H a + 2 < 2 ^ 32)
    (inv : FsInv part n s sh H) (live : sh.live m) (dir : sh.dir m)
    (next : ∀ addr t, t.disk = s.disk → DirWf part n (t.vnode addr) m (sh.up m) →
      Ensures (inodeClose me t addr) (fun u => FsInv part n u sh H ∧ u.disk = s.disk) → Ensures (k (addr, t)) Q) :
    Ensures (inodeOpen part me s m >>= k) Q := by
  have low := inv.tree.low m live
  refine Ensures.bind ⟨inodeOpen_no_assert lay.tableFits (by omega), fun r h => h⟩ ?_
  rintro ⟨addr, t⟩ opened
  obtain ⟨inv1, browsed, mem, number, -⟩ := inodeOpen_inv inv live opened
  have dirAt : DirAt t sh ⟨false, addr, 0⟩ m := ⟨mem, number, live, dir⟩
  refine next addr t browsed.disk (inv1.dirWf dirAt).1 ⟨inodeClose_no_assert inv (room _) opened, fun u closed => ?_⟩
  obtain ⟨inv2, browsed2⟩ := inodeClose_inv inv1 (room _) closed
  exact ⟨inv2, browsed2.disk.trans browsed.disk⟩

end Inodes

section Fuel

variable {part : Partition} {me : Option Nat} {s t : Fs} {child : Nat} {path path' : List Byte}

theorem childNameBlocks_grows {disk : Image} : ∀ l : List Nat, childNameBlocks part disk child path l = .ok (some path') →
    path.length < path'.length ∧ path'.length < maxPathLen := by
  intro l
  induction l with
  | nil => exact nofun
  | cons lba rest ih =>
    intro h
    rw [childNameBlocks] at h
    split at h
    · exact ih h
    simp only [bind_ok] at h
    obtain ⟨ioBuf, -, h⟩ := h
    split at h
    · simp only [appendName, bind_ok, defined_ok, pure_ok, exists_const, Option.some.injEq] at h
      obtain ⟨_, ⟨⟨-, fits⟩, rfl⟩, rfl⟩ := h
      rw [List.length_append, List.length_cons]
      omega
    · exact ih h

/-- A name that was found makes the path longer, within its buffer. -/
theorem getChildDirName_grows {parent : Nat} (h : getChildDirName part me s parent child path = .ok (some path', t)) :
    path.length < path'.length ∧ path'.length < maxPathLen := by
  simp only [getChildDirName, bind_ok, pure_ok, Prod.exists] at h
  obtain ⟨_, _, -, _, -, _, -, r, named, e⟩ := h
  cases e
  exact childNameBlocks_grows _ named

/-- The path is full before the fuel is gone. -/
theorem climb_fuel : ∀ (fuel : Nat) {child : Nat} {path : List Byte} {s : Fs}, path.length < maxPathLen →
    maxPathLen < path.length + fuel → climb part me (fuel + 1) child path s = climb part me fuel child path s := by
  intro fuel
  induction fuel with
  | zero => intro child path s short enough; omega
  | succ fuel ih =>
    intro child path s short enough
    rw [climb, climb]
    congr 1
    refine bind_congr fun up => ?_
    obtain ⟨parent, s1⟩ := up
    dsimp only
    cases named : getChildDirName part me s1 parent child path with
    | error e => rfl
    | ok found =>
      obtain ⟨found, s2⟩ := found
      cases found with
      | none => rfl
      | some path' =>
        obtain ⟨longer, fits⟩ := getChildDirName_grows named
        exact ih fits (by omega)

/-- **The fuel of `sys_getcwd`** suffices: with more the climb goes the same way. -/
theorem climb_enough : ∀ (fuel : Nat) {s : Fs}, maxPathLen < fuel →
    climb part me fuel child [] s = climb part me (maxPathLen + 1) child [] s := by
  intro fuel
  induction fuel with
  | zero => intro s more; cases more
  | succ fuel ih =>
    intro s more
    by_cases last : fuel = maxPathLen
    · rw [last]
    · have more' : maxPathLen < fuel := by omega
      rw [climb_fuel fuel (by decide) (by simpa using more'), ih more']

end Fuel

section Climb

variable {part : Partition} {n : Nat} {me : Option Nat} {s : Fs} {sh : Shape} {H : Nat → Nat} {child : Nat} {path : List Byte}

/-- **`get_parent_dir_inode_nr`** of a live directory reads its second entry. -/
theorem getParentDirInodeNr_ensures (lay : Layout part n) (room : ∀ a, H a + 2 < 2 ^ 32) (inv : FsInv part n s sh H)
    (live : sh.live child) (dir : sh.dir child) :
    Ensures (getParentDirInodeNr part me s child) fun r => r.1 = sh.up child ∧ FsInv part n r.2 sh H := by
  refine ensures_opened lay room inv live dir fun addr t disk wf closes => ?_
  have ref : blockRef t.disk (t.inodes addr) 0 = (t.inodes addr).sec 0 := blockRef_direct (by omega)
  have block := wf.blocks.block 0 (by omega) wf.first
  have onDisk := wf.onDisk 0 (by omega)
  obtain ⟨x, dotDot, -, number, isDir⟩ := wf.dotDot
  have entry : decodeDirent t.disk (512 * (t.inodes addr).sec 0) 1 = x.entry := by
    rw [← ref]
    exact dotDot.entry
  have low := inv.tree.low _ (inv.tree.naming.up live dir).1
  refine (ensures_assertThat (by rw [← ref]; exact block.ge)).bind fun _ _ => closes.bind ?_
  rintro u ⟨inv', disk'⟩
  rw [ideRead_of (transferOk_one.2 (by rw [← ref]; exact onDisk)), ok_bind, decodeDirent_shifted, disk', ← disk, entry]
  have isUp : x.entry.iNo = sh.up child := number
  refine (ensures_assertThat ⟨by rw [isUp]; exact Nat.lt_trans low (by decide), ?_⟩).bind fun _ _ => ensures_pure ⟨isUp, inv'⟩
  simp [Item.entry, Item.fType, isDir]

theorem childNameBlocks_ensures (disk : Image) : ∀ l : List Nat, (∀ lba ∈ l, lba ≤ maxLba) →
    Ensures (childNameBlocks part disk child path l) fun _ => True := by
  intro l
  induction l with
  | nil => exact fun _ => ensures_pure trivial
  | cons lba rest ih =>
    intro onDisk
    have more := ih fun x mem => onDisk x (List.mem_cons_of_mem _ mem)
    rw [childNameBlocks]
    split
    · exact more
    rw [ideRead_of (transferOk_one.2 (onDisk lba List.mem_cons_self)), ok_bind]
    split
    · refine Ensures.bind (P := fun _ => True) ?_ fun _ _ => ensures_pure trivial
      exact ensures_defined.bind fun _ _ => ensures_pure trivial
    · exact more

/-- **`get_child_dir_name`** in a live directory. -/
theorem getChildDirName_ensures (lay : Layout part n) (room : ∀ a, H a + 2 < 2 ^ 32) (inv : FsInv part n s sh H) {parent : Nat}
    (live : sh.live parent) (dir : sh.dir parent) :
    Ensures (getChildDirName part me s parent child path) fun r => FsInv part n r.2 sh H := by
  refine ensures_opened lay room inv live dir fun addr t disk wf closes => ?_
  obtain ⟨all, collected⟩ := allBlocks_returns fun _ => wf.onDisk 140 (by omega)
  obtain ⟨-, refs⟩ := allBlocks_ok collected
  have onDisk : ∀ lba ∈ (List.range 140).map all, lba ≤ maxLba := by
    intro lba mem
    obtain ⟨k, lt, rfl⟩ := List.mem_map.1 mem
    rw [List.mem_range] at lt
    rw [refs k lt]
    exact wf.onDisk k (by omega)
  dsimp only
  rw [show allBlocks t.disk (t.inodes addr) = .ok all from collected, ok_bind]
  exact closes.bind fun u closed => (childNameBlocks_ensures u.disk _ onDisk).bind fun _ _ => ensures_pure closed.1

/-- **The climb** to the root goes through live directories. -/
theorem climb_ensures (lay : Layout part n) (room : ∀ a, H a + 2 < 2 ^ 32) : ∀ (fuel : Nat) {child : Nat} {path : List Byte} {s : Fs},
    FsInv part n s sh H → sh.live child → sh.dir child → path.length < maxPathLen →
    Ensures (climb part me fuel child path s) fun r => FsInv part n r.2 sh H ∧ ∀ path', r.1 = some path' → path'.length < maxPathLen := by
  intro fuel
  induction fuel with
  | zero => exact fun _ _ _ _ => ⟨nofun, nofun⟩
  | succ fuel ih =>
    intro child path s inv live dir short
    rw [climb]
    split
    · refine ensures_pure ⟨inv, fun _ e => ?_⟩
      cases e
      exact short
    · refine (getParentDirInodeNr_ensures lay room inv live dir).bind ?_
      rintro ⟨parent, s1⟩ ⟨rfl, inv1⟩
      obtain ⟨live', dir'⟩ := inv.tree.naming.up live dir
      have keeps : Ensures (getChildDirName part me s1 (sh.up child) child path) fun r => FsInv part n r.2 sh H :=
        getChildDirName_ensures lay room inv1 live' dir'
      refine Ensures.bind ⟨keeps.1, fun r h => h⟩ ?_
      rintro ⟨found, s2⟩ named
      cases found with
      | none => exact ensures_pure ⟨keeps.2 _ named, nofun⟩
      | some path' => exact ih (keeps.2 _ named) live' dir' (getChildDirName_grows named).2

end Climb

/-- **`sys_getcwd`** of a task whose working directory is a live directory fails no assertion
when the buffer can hold a path. -/
theorem sysGetcwd_ensures {part : Partition} {n pid size : Nat} {σ : Sys} {sh : Shape} {H : Nat → Nat} {buf : Option Nat}
    (lay : Layout part n) (room : ∀ a, H a + 2 < 2 ^ 32) (inv : FsInv part n σ.fs sh H) (live : sh.live (σ.procs pid).cwdInodeNr)
    (dir : sh.dir (σ.procs pid).cwdInodeNr) (given : buf ≠ none) (large : maxPathLen ≤ size + 1) :
    Ensures (sysGetcwd part pid σ buf size) fun r => FsInv part n r.2.fs sh H := by
  have low := inv.tree.low _ live
  refine (ensures_assertThat given).bind fun _ _ => ?_
  split
  · exact ensures_pure inv.malloc
  refine (ensures_assertThat (Nat.lt_trans low (by decide))).bind fun _ _ => ?_
  split
  · exact ensures_defined.bind fun _ _ => ensures_pure inv.malloc
  refine (climb_ensures lay room _ inv.malloc live dir (by decide)).bind ?_
  rintro ⟨found, s⟩ ⟨inv', short⟩
  cases found with
  | none => exact ensures_pure inv'
  | some path =>
    have := short path rfl
    exact (ensures_assertThat (by omega)).bind fun _ _ => ensures_defined.bind fun _ _ => ensures_pure inv'

end Sparrow
