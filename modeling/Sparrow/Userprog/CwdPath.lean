import Sparrow.Fs.NameBytes
import Sparrow.Fs.Packed
import Sparrow.Shell.WashPath
import Sparrow.Userprog.SharedInodes

/-!
# The path of the working directory

A task keeps the number of its working directory and no path. `sys_getcwd` makes one up: it climbs
to the root by the entries `..`, asks each parent which of its entries has the number of the child,
and turns the names round at the end. `get_child_dir_name` looks at numbers only, so it needs
directories without gaps, and the numbers of `.` and `..` must not be that of the child.
-/

namespace Sparrow
set_option autoImplicit false

section Climb

variable {part : Partition} {n m : Nat} {me : Option Nat} {s : Fs} {sh : Shape} {H : Nat → Nat} {path : List Byte}

/-- The state after a lookup that gave back all it took. -/
structure LookedAt (part : Partition) (n : Nat) (me : Option Nat) (s t : Fs) (sh : Shape) (H : Nat → Nat) : Prop where
  inv : FsInv part n t sh H
  calm : Calm me H t
  browsed : Browsed s t

theorem LookedAt.trans {t u : Fs} (first : LookedAt part n me s t sh H) (second : LookedAt part n me t u sh H) :
    LookedAt part n me s u sh H := ⟨second.inv, second.calm, first.browsed.trans second.browsed⟩

/-- A live directory is opened and closed again. -/
theorem FsInv.opened_closed (lay : Layout part n) (room : ∀ a, H a + 2 < 2 ^ 32) (inv : FsInv part n s sh H) (calm : Calm me H s)
    (live : sh.live m) (dir : sh.dir m) :
    ∃ addr t u, inodeOpen part me s m = .ok (addr, t) ∧ inodeClose me t addr = .ok u ∧ t.disk = s.disk ∧
      DirWf part n (t.vnode addr) m (sh.up m) ∧
      (∀ k j x, ItemAt (t.vnode addr) k j x ↔ ItemAt (nodeAt part s.disk s.blockBitmap m) k j x) ∧
      LookedAt part n me s u sh H := by
  have low := inv.tree.low m live
  obtain ⟨addr, t, opened⟩ := inodeOpen_returns lay calm (show m < 4096 by omega)
  obtain ⟨inv1, browsed, mem, number, -⟩ := inodeOpen_inv inv live opened
  have calm1 := calm_invariant.opens opened calm
  have dirAt : DirAt t sh ⟨false, addr, 0⟩ m := ⟨mem, number, live, dir⟩
  obtain ⟨wf, -, items, -⟩ := inv1.dirWf dirAt
  rw [browsed.disk, browsed.blockBitmap] at items
  obtain ⟨u, closed⟩ := inodeClose_returns calm1 inv1.toFsCore (fun _ => Nat.le_refl _) (room addr)
  obtain ⟨inv2, browsed2⟩ := inodeClose_inv inv1 (room _) closed
  exact ⟨addr, t, u, opened, closed, browsed.disk, wf, items, inv2, calm1.close closed, browsed.trans browsed2⟩

/-- **`get_parent_dir_inode_nr`** of a live directory returns the directory above. -/
theorem getParentDirInodeNr_returns (lay : Layout part n) (room : ∀ a, H a + 2 < 2 ^ 32) (inv : FsInv part n s sh H)
    (calm : Calm me H s) (live : sh.live m) (dir : sh.dir m) :
    ∃ t, getParentDirInodeNr part me s m = .ok (sh.up m, t) ∧ LookedAt part n me s t sh H := by
  obtain ⟨addr, t, u, opened, closed, -, wf, -, looked⟩ := inv.opened_closed lay room calm live dir
  have ref : blockRef t.disk (t.inodes addr) 0 = (t.inodes addr).sec 0 := blockRef_direct (by omega)
  have block := (wf.blocks.block 0 (by omega) wf.first).ge
  have onDisk := wf.onDisk 0 (by omega)
  obtain ⟨x, dotDot, -, number, isDir⟩ := wf.dotDot
  have entry : decodeDirent t.disk (512 * (t.inodes addr).sec 0) 1 = x.entry := by
    rw [← ref]
    exact dotDot.entry
  have low := inv.tree.low _ (inv.tree.naming.up live dir).1
  have same : u.disk = t.disk := by
    obtain ⟨-, rfl⟩ := inodeClose_ok closed
    rfl
  have above : x.entry.iNo < 4096 ∧ x.entry.fType = FileTypes.directory.code := by
    refine ⟨?_, by simp [Item.entry, Item.fType, isDir]⟩
    rw [show x.entry.iNo = sh.up m from number]
    exact Nat.lt_trans low (by decide)
  refine ⟨u, ?_, looked⟩
  rw [getParentDirInodeNr, opened, ok_bind]
  dsimp only
  rw [assertThat_of (show part.sb.dataStartLba ≤ (t.inodes addr).sec 0 from ref ▸ block), ok_bind, closed, ok_bind, same,
    ideRead_of (transferOk_one.2 (show (t.inodes addr).sec 0 ≤ maxLba from ref ▸ onDisk)), ok_bind]
  rw [decodeDirent_shifted, entry, assertThat_of above, ok_bind, show x.entry.iNo = sh.up m from number]
  rfl

/-- **`get_child_dir_name`** finds the name of an entry when neither `.` nor `..` has its number. -/
theorem getChildDirName_returns (path : List Byte) (lay : Layout part n) (room : ∀ a, H a + 2 < 2 ^ 32) (inv : FsInv part n s sh H)
    (calm : Calm me H s) (live : sh.live m) (dir : sh.dir m) (packed : Packed (nodeAt part s.disk s.blockBitmap m)) {k j : Nat}
    {x : Item} (at_ : ItemAt (nodeAt part s.disk s.blockBitmap m) k j x) (ord : x.Ordinary) (notSelf : m ≠ x.iNo)
    (notUp : sh.up m ≠ x.iNo) (fits : path.length + 1 + x.name.bytes.length < maxPathLen) :
    ∃ t, getChildDirName part me s m x.iNo path = .ok (some (path ++ slash :: x.name.bytes), t) ∧ LookedAt part n me s t sh H := by
  obtain ⟨addr, t, u, opened, closed, -, wf, items, looked⟩ := inv.opened_closed lay room calm live dir
  have at' := (items k j x).2 at_
  have block := at_.block
  have slot := at_.slot
  obtain ⟨isBlock, isSlot⟩ : (21 * k + j) / 21 = k ∧ (21 * k + j) % 21 = j := by omega
  have hit : Carries (t.vnode addr) x.iNo (21 * k + j) := by
    rw [Carries, isBlock, isSlot]
    refine ⟨at'.has, ?_⟩
    rw [at'.entry]
    rfl
  have first : ∀ i, i < 21 * k + j → ¬ Carries (t.vnode addr) x.iNo i := by
    intro i lt carries
    obtain ⟨y, before⟩ := packed k j x at_ (i / 21) (i % 21) (Nat.mod_lt _ (by omega)) (by omega)
    have before' := (items _ _ _).2 before
    have same : y.iNo = x.iNo := by
      have number := carries.2
      rw [before'.entry] at number
      exact number
    by_cases ordY : y.Ordinary
    · obtain ⟨here, there⟩ := wf.numbers _ _ _ _ _ _ before' at' ordY ord same
      omega
    · obtain ⟨-, ⟨-, isSelf⟩ | ⟨-, isUp⟩⟩ := wf.dots before' ordY
      · exact notSelf (isSelf.symm.trans same)
      · exact notUp (isUp.symm.trans same)
  refine ⟨u, getChildDirName_of opened closed ?_, looked⟩
  have found : childName part (t.vnode addr).disk (t.vnode addr).inode x.iNo path = _ :=
    childName_first lay.dirEntrySize wf.onDisk (show 21 * k + j < 2940 by omega) hit first
  rw [isBlock, isSlot] at found
  have appended : appendName path (shifted (t.vnode addr).disk (512 * blockRef (t.vnode addr).disk (t.vnode addr).inode k)) j =
      .ok (path ++ slash :: x.name.bytes) := by
    have short := x.name.short
    rw [appendName_iff x.name.noZero (by omega) slot]
    exact ⟨(strEq_item at'.entry x.name).2 rfl, fits⟩
  rw [appended, ok_bind] at found
  exact found

theorem LookedAt.packed {t : Fs} (looked : LookedAt part n me s t sh H) (packed : PackedDirs part s.disk s.blockBitmap sh) :
    PackedDirs part t.disk t.blockBitmap sh := by
  rw [looked.browsed.disk, looked.browsed.blockBitmap]
  exact packed

theorem LookedAt.denotes {t : Fs} {names : List (List Byte)} {i : Nat} (looked : LookedAt part n me s t sh H)
    (denotes : Denotes part s.disk s.blockBitmap sh names i) : Denotes part t.disk t.blockBitmap sh names i := by
  rw [looked.browsed.disk, looked.browsed.blockBitmap]
  exact denotes

/-- **The climb** from a directory takes the names of its plain path, the last one first. -/
theorem climb_returns (lay : Layout part n) (room : ∀ a, H a + 2 < 2 ^ 32) (names : List (List Byte)) {fuel child : Nat}
    (inv : FsInv part n s sh H) (calm : Calm me H s) (packed : PackedDirs part s.disk s.blockBitmap sh) (live : sh.live child)
    (dir : sh.dir child) (plain : pathLabels.Plain names) (denotes : Denotes part s.disk s.blockBitmap sh names child)
    (fits : path.length + (joinPath names).length < maxPathLen) (enough : names.length < fuel) :
    ∃ t, climb part me fuel child path s = .ok (some (path ++ joinPath names.reverse), t) ∧ LookedAt part n me s t sh H := by
  induction names using List.reverseRecOn generalizing fuel child path s with
  | nil =>
    obtain ⟨fuel, rfl⟩ : ∃ m, fuel = m + 1 := ⟨fuel - 1, by omega⟩
    cases denotes
    rw [climb, if_pos rfl, List.reverse_nil, show joinPath [] = [] from rfl, List.append_nil]
    exact ⟨s, rfl, inv, calm, .refl s⟩
  | append_singleton front k ih =>
    rw [List.length_append, List.length_singleton] at enough
    obtain ⟨fuel, rfl⟩ : ∃ m, fuel = m + 1 := ⟨fuel - 1, by omega⟩
    have wf := inv.tree.naming
    obtain ⟨notRoot, before, x, ⟨ord, k', j, at_⟩, isName, isChild⟩ := Naming.Walk.last_entry wf plain denotes live dir
    obtain ⟨notSelf, notUp⟩ := Naming.Walk.up_ne wf plain denotes live dir
    obtain ⟨liveU, dirU⟩ := wf.up live dir
    change sh.up child ≠ child at notSelf
    change sh.up (sh.up child) ≠ child at notUp
    change sh.live (sh.up child) at liveU
    change sh.dir (sh.up child) at dirU
    have name : k = x.name.bytes := isName
    have number : x.iNo = child := isChild
    subst name number
    have parts : (joinPath (front ++ [x.name.bytes])).length = (joinPath front).length + 1 + x.name.bytes.length := by
      simp only [joinPath, List.flatMap_append, List.flatMap_singleton, List.length_append, List.length_cons]
      omega
    rw [parts] at fits
    obtain ⟨s1, parent, looked1⟩ := getParentDirInodeNr_returns lay room inv calm live dir
    have packed1 := looked1.packed packed
    rw [← looked1.browsed.disk, ← looked1.browsed.blockBitmap] at at_
    obtain ⟨s2, named, looked2⟩ := getChildDirName_returns path lay room looked1.inv looked1.calm liveU dirU
      (packed1 _ liveU dirU) at_ ord notSelf notUp (by omega)
    have longer : (path ++ slash :: x.name.bytes).length = path.length + 1 + x.name.bytes.length := by
      rw [List.length_append, List.length_cons]
      omega
    have fits' : (path ++ slash :: x.name.bytes).length + (joinPath front).length < maxPathLen := by omega
    obtain ⟨t, rest, looked3⟩ := ih looked2.inv looked2.calm (looked2.packed packed1) liveU dirU plain.front
      (looked2.denotes (looked1.denotes before)) fits' (show front.length < fuel by omega)
    refine ⟨t, ?_, (looked1.trans looked2).trans looked3⟩
    rw [climb, if_neg notRoot, parent, ok_bind]
    dsimp only
    rw [named, ok_bind]
    dsimp only
    rw [rest, List.reverse_append, List.append_assoc]
    rfl

end Climb

section Text

variable {names : List (List Byte)} {buf : List Byte}

/-- **The names are turned round.** -/
theorem turnRound_join : ∀ (names : List (List Byte)) {fuel : Nat} {buf : List Byte}, (∀ k ∈ names, slash ∉ k) → names.length ≤ fuel →
    turnRound fuel (joinPath names.reverse) buf = buf ++ joinPath names := by
  intro names
  induction names with
  | nil =>
    intro fuel buf _ _
    rw [List.reverse_nil, show joinPath [] = [] from rfl, List.append_nil]
    cases fuel with
    | zero => rfl
    | succ fuel => rw [turnRound, if_neg List.not_mem_nil]
  | cons k rest ih =>
    intro fuel buf noSlash enough
    rw [List.length_cons] at enough
    obtain ⟨fuel, rfl⟩ : ∃ m, fuel = m + 1 := ⟨fuel - 1, by omega⟩
    have last : joinPath (k :: rest).reverse = joinPath rest.reverse ++ slash :: k := by
      rw [List.reverse_cons, joinPath, List.flatMap_append, List.flatMap_singleton]
      rfl
    have isLast : lastName (joinPath rest.reverse ++ slash :: k) = k := by
      rw [lastName_append List.mem_cons_self]
      exact lastName_component (noSlash k List.mem_cons_self)
    have here : slash ∈ joinPath rest.reverse ++ slash :: k := List.mem_append_right _ List.mem_cons_self
    have cut : (joinPath rest.reverse ++ slash :: k).take ((joinPath rest.reverse ++ slash :: k).length - k.length - 1) =
        joinPath rest.reverse := by
      rw [List.length_append, List.length_cons, show (joinPath rest.reverse).length + (k.length + 1) - k.length - 1 =
        (joinPath rest.reverse).length by omega]
      exact List.take_left
    rw [last, turnRound, if_pos here, isLast, cut, ih (fun x mem => noSlash x (List.mem_cons_of_mem _ mem)) (by omega),
      List.append_assoc]
    rfl

theorem length_le_joinPath : ∀ names : List (List Byte), names.length ≤ (joinPath names).length := by
  intro names
  induction names with
  | nil => exact Nat.le_refl _
  | cons k rest ih =>
    simp only [joinPath, List.flatMap_cons, List.length_append, List.length_cons] at ih ⊢
    omega

theorem joinPath_reverse_length : (joinPath names.reverse).length = (joinPath names).length := by
  simp only [joinPath, List.length_flatMap, List.map_reverse, List.sum_reverse]

end Text

section Getcwd

variable {part : Partition} {n pid size : Nat} {σ : Sys} {sh : Shape} {H : Nat → Nat} {names : List (List Byte)}

/-- **`sys_getcwd`** returns the plain path of the working directory. -/
theorem sysGetcwd_returns (buf : Nat) (lay : Layout part n) (room : ∀ a, H a + 2 < 2 ^ 32) (inv : FsInv part n σ.fs sh H)
    (calm : Calm (σ.heapOf pid) H σ.fs) (packed : PackedDirs part σ.fs.disk σ.fs.blockBitmap sh)
    (live : sh.live (σ.procs pid).cwdInodeNr) (dir : sh.dir (σ.procs pid).cwdInodeNr) (plain : pathLabels.Plain names)
    (components : ∀ k ∈ names, IsComponent k)
    (denotes : Denotes part σ.fs.disk σ.fs.blockBitmap sh names (σ.procs pid).cwdInodeNr)
    (fits : (joinPath names).length < maxPathLen) (large : maxPathLen ≤ size) :
    ∃ t, sysGetcwd part pid σ (some buf) size = .ok (some (absPath names), { σ with fs := t }) ∧
      LookedAt part n (σ.heapOf pid) σ.fs t sh H := by
  have low := inv.tree.low _ live
  have start : LookedAt part n (σ.heapOf pid) σ.fs σ.fs.malloc sh H := ⟨inv.malloc, calm.malloc, browsed_malloc⟩
  have memory : ¬ σ.fs.mallocOk = false := by
    rw [calm.mallocOk]
    decide
  rw [sysGetcwd, assertThat_of (by simp), ok_bind, if_neg memory]
  dsimp only
  rw [assertThat_of (show (σ.procs pid).cwdInodeNr < 4096 by omega), ok_bind]
  by_cases top : (σ.procs pid).cwdInodeNr = 0
  · have none : names = [] := by
      rw [top] at denotes
      exact Naming.Walk.plain_unique inv.tree.naming plain (fun k mem => by cases mem) denotes .nil inv.tree.naming.top.1
        inv.tree.naming.top.2.1
    rw [if_pos top, defined_of (show 2 ≤ size from Nat.le_trans (by decide) large), ok_bind, none]
    exact ⟨_, rfl, start⟩
  · have some_ : names ≠ [] := by
      rintro rfl
      exact top (Naming.Walk.unique inv.tree.naming inv.tree.clear denotes .nil inv.tree.naming.top.1)
    have count := length_le_joinPath names
    have reversed : (joinPath names.reverse).length = (joinPath names).length := joinPath_reverse_length
    obtain ⟨t, climbed, looked⟩ := climb_returns lay room names start.inv start.calm packed live dir plain denotes
      (show ([] : List Byte).length + (joinPath names).length < maxPathLen by rw [List.length_nil]; omega)
      (show names.length < maxPathLen + 1 by omega)
    rw [List.nil_append] at climbed
    rw [if_neg top, climbed, ok_bind]
    dsimp only
    rw [assertThat_of (by omega), ok_bind, defined_of (by omega), ok_bind,
      turnRound_join names (fun k mem => (components k mem).noSlash) (by omega), List.nil_append, absPath, if_neg some_]
    exact ⟨t, rfl, start.trans looked⟩

end Getcwd

section Paths

variable {part : Partition} {names : List (List Byte)} {me : Option Nat} {s t : Fs}

/-- What `search_file` asserts of its argument. -/
theorem searchFile_bounds {path : List Byte} {r : SearchResult} (search : searchFile part me s path = .ok (r, t)) :
    path.head? = some slash ∧ path.length < maxPathLen := by
  simp only [searchFile] at search
  split at search
  · rename_i top
    rcases top with rfl | rfl | rfl <;> exact ⟨rfl, by decide⟩
  · simp only [bind_ok, assertThat_ok, exists_const] at search
    exact ⟨search.1.1, search.1.2.2⟩

end Paths

/-- `sys_mkdir` of a string by a live task, while fewer than 256 inodes are in use. -/
def MkdirCall (σ : Sys) (pid : Nat) (call : Call) : Prop :=
  pid ∈ σ.live ∧ match call with
    | .mkdir pathname => 0#8 ∉ pathname ∧ ∃ m, m < 256 ∧ ¬ σ.fs.inodeBitmap.Set m
    | _ => False

/-- What such calls keep as long as there is memory. -/
structure Planted (part : Partition) (n : Nat) (σ : Sys) (sh : Shape) : Prop where
  settled : Settled part n σ sh (fun _ => 0)
  packed : PackedDirs part σ.fs.disk σ.fs.blockBitmap sh
  heap : σ.fs.mallocs = []
  held : KernelHeld σ.fs

section Runs

variable {part : Partition} {n pid : Nat} {σ σ' : Sys} {sh : Shape} {path : List Byte}

theorem Planted.calm (planted : Planted part n σ sh) : Calm (σ.heapOf pid) (fun a => slotHandles σ.fs.fileTable a + 0) σ.fs :=
  planted.settled.inv.toFsCore.calm planted.heap fun a mem => .inl (planted.held a mem)

theorem Planted.mkdir (lay : Layout part n) (planted : Planted part n σ sh) (noZero : 0#8 ∉ path)
    (free : ∃ m, m < 256 ∧ ¬ σ.fs.inodeBitmap.Set m) {r : Int} (ran : sysMkdir part pid σ path = .ok (r, σ')) :
    ∃ sh', Planted part n σ' sh' := by
  have settled := planted.settled
  simp only [sysMkdir, bind_ok, pure_ok, Prod.exists] at ran
  obtain ⟨ok, t, made, ran⟩ := ran
  cases ran
  have heap : t.mallocs = [] := heap_invariant.mkdirPath (fun _ _ same none => same.trans none) made planted.heap
  have may : MayCreate part (σ.heapOf pid) σ.fs.malloc path := mayCreate_of_heap (malloc_heap planted.heap) free
  obtain ⟨steady, ⟨inv, packed⟩ | ⟨p, f, fresh, inv, packed⟩⟩ :=
    mkdirPath_packed lay settled.room_two settled.inv noZero may planted.packed made
  · exact ⟨sh, settled.quiet steady inv (fun _ _ => Iff.rfl) fun q live => (settled.cwd q live).1, packed, heap,
      mkdirPath_held made planted.held⟩
  · exact ⟨_, settled.quiet steady inv (fun _ => Shape.insert_dir fresh) fun q live => .inl (settled.cwd q live).1, packed, heap,
      mkdirPath_held made planted.held⟩

/-- **`sys_chdir`** of a path goes where the names of the path lead. -/
theorem Planted.chdir (lay : Layout part n) (planted : Planted part n σ sh) (noZero : 0#8 ∉ path) (named : pathNames path ≠ [])
    (moved : sysChdir part pid σ path = .ok (0, σ')) :
    Planted part n σ' sh ∧ σ'.live = σ.live ∧ path.head? = some slash ∧ path.length < maxPathLen ∧
      Denotes part σ'.fs.disk σ'.fs.blockBitmap sh (pathNames path) (σ'.procs pid).cwdInodeNr := by
  have settled := planted.settled.chdir lay noZero moved
  have inv := planted.settled.inv
  simp only [sysChdir, bind_ok, Prod.exists] at moved
  obtain ⟨r, s1, search, s2, closed, moved⟩ := moved
  obtain ⟨q, inv1, browsed1, -⟩ := searchFile_inv lay planted.settled.room_two inv noZero search
  obtain ⟨-, browsed2⟩ := closeParent_inv (planted.settled.room_two _) inv1 closed
  have browsed := browsed1.trans browsed2
  split at moved
  · rename_i m number type
    rw [pure_ok] at moved
    cases moved
    have resolved := searchFile_found lay planted.settled.room_two inv noZero named search planted.heap
    have denotes := resolved.denotes number fun no => by
      rw [type] at no
      cases no
    have bounds := searchFile_bounds search
    refine ⟨⟨settled, ?_, dirClose_keeps (@heap_invariant part _).closes closed (heap_invariant.searchFile search planted.heap),
      closeParent_held closed (cacheInvariant_held.searchFile search planted.held)⟩, rfl, bounds.1, bounds.2, ?_⟩
    · show PackedDirs part s2.disk s2.blockBitmap sh
      rw [browsed.disk, browsed.blockBitmap]
      exact planted.packed
    · show Denotes part s2.disk s2.blockBitmap sh (pathNames path) (if pid = pid then { σ.procs pid with cwdInodeNr := m }
        else σ.procs pid : Proc).cwdInodeNr
      rw [browsed.disk, browsed.blockBitmap, if_pos rfl]
      exact denotes
  · cases moved

/-- A partition just formatted, as long as there is memory. -/
theorem planted_of_format {disk : Image} {startLba secCnt sects : Nat} {s : Fs} (lt : secCnt < 2 ^ 32)
    (sizes : formatSizes secCnt = .ok (sects, n)) (blocks : 8 ≤ n) (formatted : formatAndMount disk startLba secCnt = .ok (part, s)) :
    Layout part n ∧ Planted part n (bootSys { s with mallocs := [] }) .root := by
  obtain ⟨lay, inv⟩ := formatAndMount_inv lt sizes blocks formatted
  obtain ⟨disk', s', mount, root⟩ := formatAndMount_mounted formatted
  refine ⟨lay, settled_bootSys inv (formatAndMount_fileTable formatted) [], fun m live dir => ?_, rfl,
    (mount_held mount root).of_eq rfl rfl⟩
  -- an ordinary entry of the root would name another live inode
  have bare : ∀ k j y, ItemAt (nodeAt part s.disk s.blockBitmap m) k j y → ¬ y.Ordinary := by
    intro k j y at_ ord
    obtain ⟨live', notRoot, -⟩ := inv.tree.naming.named m y live dir ⟨ord, k, j, at_⟩
    exact notRoot live'
  exact packed_of_bare ((inv.tree.node m live).dirWf dir).1 bare

/-- Every run of `sys_mkdir` on it. -/
theorem planted_of_run {disk : Image} {startLba secCnt sects : Nat} {s : Fs} (lt : secCnt < 2 ^ 32)
    (sizes : formatSizes secCnt = .ok (sects, n)) (blocks : 8 ≤ n) (formatted : formatAndMount disk startLba secCnt = .ok (part, s))
    (run : Run part (fun σ pid call _ => MkdirCall σ pid call) (bootSys { s with mallocs := [] }) σ) :
    Layout part n ∧ ∃ sh, Planted part n σ sh := by
  obtain ⟨lay, planted⟩ := planted_of_format lt sizes blocks formatted
  refine ⟨lay, run.invariant (I := fun σ => ∃ sh, Planted part n σ sh) ?_ ⟨_, planted⟩⟩
  rintro _ _ pid call r ⟨sh, planted⟩ ⟨-, allowed⟩ ran
  cases call with
  | mkdir pathname => exact planted.mkdir lay allowed.1 allowed.2 ran
  | _ => exact allowed.elim

end Runs

/-- **`sys_getcwd` inverts `sys_chdir`.** In every tree that `sys_mkdir` grows on a fresh partition, and
after every `sys_chdir` that is accepted, `sys_getcwd` returns a path without `.`, `..` and empty names,
and `search_file` finds the working directory under it. -/
theorem getcwd_inverts_chdir {disk : Image} {startLba secCnt sects n : Nat} {part : Partition} {s : Fs} {σ σ₁ : Sys}
    (lt : secCnt < 2 ^ 32) (sizes : formatSizes secCnt = .ok (sects, n)) (blocks : 8 ≤ n)
    (formatted : formatAndMount disk startLba secCnt = .ok (part, s))
    (run : Run part (fun σ pid call _ => MkdirCall σ pid call) (bootSys { s with mallocs := [] }) σ) {pid : Nat}
    (live : pid ∈ σ.live) {path : List Byte} (noZero : 0#8 ∉ path) (named : pathNames path ≠ [])
    (moved : sysChdir part pid σ path = .ok (0, σ₁)) (buf : Nat) :
    ∃ names σ₂, sysGetcwd part pid σ₁ (some buf) 512 = .ok (some (absPath names), σ₂) ∧
      (∀ k ∈ names, k ≠ [] ∧ slash ∉ k ∧ k ≠ dot ∧ k ≠ dotDot) ∧
      (absPath names = [slash] ↔ (σ₁.procs pid).cwdInodeNr = 0) ∧
      ∃ r t, searchFile part (σ₂.heapOf pid) σ₂.fs (absPath names) = .ok (r, t) ∧
        r.inodeNo = some (σ₁.procs pid).cwdInodeNr := by
  obtain ⟨lay, sh, before⟩ := planted_of_run lt sizes blocks formatted run
  obtain ⟨planted, sameLive, abs, short, denotes⟩ := before.chdir lay noZero named moved
  have settled := planted.settled
  have inv := settled.inv
  obtain ⟨alive, dir⟩ := settled.cwd pid (sameLive ▸ live)
  have wf : Pathname path := ⟨abs, short, noZero, walk_short denotes⟩
  have plain : pathLabels.Plain (Naming.wash pathLabels (pathNames path)) := Naming.wash_plain _
  have components : ∀ k ∈ Naming.wash pathLabels (pathNames path), IsComponent k := fun k mem =>
    (mem_pathNamesFuel _ (Naming.wash_sub _ k mem)).1
  have washed : Denotes part σ₁.fs.disk σ₁.fs.blockBitmap sh (Naming.wash pathLabels (pathNames path)) (σ₁.procs pid).cwdInodeNr :=
    Naming.Walk.wash inv.tree.naming inv.tree.clear denotes
  obtain ⟨t, got, looked⟩ := sysGetcwd_returns buf lay settled.room_two inv planted.calm planted.packed alive dir
    plain components washed (washPath_eq wf).2 (show maxPathLen ≤ 512 from Nat.le_refl _)
  refine ⟨_, _, got, fun k mem => ?_, ⟨fun top => ?_, fun top => ?_⟩, ?_⟩
  · have component := components k mem
    exact ⟨component.nonempty, component.noSlash, plain k mem⟩
  · by_contra below
    refine absPath_ne_slash components (fun none => ?_) top
    rw [none] at washed
    exact below (Naming.Walk.unique inv.tree.naming inv.tree.clear washed .nil inv.tree.naming.top.1)
  · rw [top] at washed
    rw [Naming.Walk.plain_unique inv.tree.naming plain (fun k mem => by cases mem) washed .nil inv.tree.naming.top.1
      inv.tree.naming.top.2.1]
    rfl
  · obtain ⟨r, u, search⟩ := looked.inv.search_washed_returns lay settled.room_two wf looked.calm.heap looked.calm.reach
    refine ⟨r, u, search, ?_⟩
    obtain ⟨found, -⟩ | ⟨no, -⟩ := looked.inv.search_washed lay settled.room_two wf (looked.denotes denotes) search
    · exact found
    · exact absurd looked.calm.heap no.heap

section Examples

/-- A test that is true of these calls. -/
def mkdirCallTest (σ : Sys) (pid : Nat) (call : Call) : Bool :=
  decide (pid ∈ σ.live) && match call with
    | .mkdir pathname => !pathname.contains 0#8 && (List.range 256).any fun m => decide (¬ σ.fs.inodeBitmap.Set m)
    | _ => false

theorem mkdirCallTest_sound {σ : Sys} {pid : Nat} {call : Call} (h : mkdirCallTest σ pid call = true) : MkdirCall σ pid call := by
  cases call <;> simp_all [mkdirCallTest, MkdirCall]

/-- The path `/d/../d/e`. -/
def pathDUpDE : List Byte := [slash, 0x64#8, slash, 0x2e#8, 0x2e#8, slash, 0x64#8, slash, 0x65#8]

/-- `/d` and `/d/e` are made, and process 1 goes to the latter. -/
theorem upDE_run (mallocs : List Bool) (test : Option (List Byte) → Bool)
    (ran : returns (formatAndMount (fun _ => 0#8) 1 620) (fun x => returns (runCalls x.1 (fun σ pid call _ => mkdirCallTest σ pid call)
        [(1, .mkdir pathD), (1, .mkdir pathDE)] (bootSys { x.2 with mallocs := mallocs })) fun σ => decide (1 ∈ σ.live) &&
      returns (sysChdir x.1 1 σ pathDUpDE) fun y => decide (y.1 = 0 ∧ (y.2.procs 1).cwdInodeNr = 2) &&
      returns (sysGetcwd x.1 1 y.2 (some 0) 512) fun z => test z.1) = true) :
    ∃ part s σ σ₁ got σ₂, formatAndMount (fun _ => 0#8) 1 620 = .ok (part, s) ∧
      Run part (fun σ pid call _ => MkdirCall σ pid call) (bootSys { s with mallocs := mallocs }) σ ∧ 1 ∈ σ.live ∧
      sysChdir part 1 σ pathDUpDE = .ok (0, σ₁) ∧ (σ₁.procs 1).cwdInodeNr = 2 ∧
      sysGetcwd part 1 σ₁ (some 0) 512 = .ok (got, σ₂) ∧ test got = true := by
  obtain ⟨⟨part, s⟩, formatted, ran⟩ := returns_true.1 ran
  obtain ⟨σ, ran, rest⟩ := returns_true.1 ran
  rw [Bool.and_eq_true, decide_eq_true_eq] at rest
  obtain ⟨live, rest⟩ := rest
  obtain ⟨⟨r, σ₁⟩, moved, rest⟩ := returns_true.1 rest
  rw [Bool.and_eq_true, decide_eq_true_eq] at rest
  obtain ⟨⟨rfl, there⟩, rest⟩ := rest
  obtain ⟨⟨got, σ₂⟩, ran', test⟩ := returns_true.1 rest
  exact ⟨part, s, σ, σ₁, got, σ₂, formatted, runCalls_run (fun _ _ _ _ => mkdirCallTest_sound) _ _ ran, live, moved, there, ran', test⟩

theorem getcwd_inverts_chdir_upDE : ∃ part s σ σ₁ σ₂, formatAndMount (fun _ => 0#8) 1 620 = .ok (part, s) ∧
    Run part (fun σ pid call _ => MkdirCall σ pid call) (bootSys { s with mallocs := [] }) σ ∧
    sysChdir part 1 σ pathDUpDE = .ok (0, σ₁) ∧ sysGetcwd part 1 σ₁ (some 0) 512 = .ok (some pathDE, σ₂) ∧
    ∃ r t, searchFile part (σ₂.heapOf 1) σ₂.fs pathDE = .ok (r, t) ∧ r.inodeNo = some 2 := by
  obtain ⟨part, s, σ, σ₁, got, σ₂, formatted, run, live, moved, there, ran, test⟩ :=
    upDE_run [] (fun got => decide (got = some pathDE)) (by decide +kernel)
  obtain ⟨names, σ₂', got', -, -, r, t, search, found⟩ := getcwd_inverts_chdir (by decide)
    (show formatSizes 620 = .ok (1, 8) from rfl) (by decide) formatted run live (by decide) (by decide) moved 0
  have is := of_decide_eq_true test
  rw [is] at ran
  rw [ran, Except.ok.injEq, Prod.mk.injEq, Option.some.injEq] at got'
  obtain ⟨same, rfl⟩ := got'
  rw [← same] at search
  rw [there] at found
  exact ⟨part, s, σ, σ₁, _, formatted, run, moved, ran, r, t, search, found⟩

/-- Without memory for its sector `sys_getcwd` returns the null pointer. -/
theorem getcwd_noMemory : ¬ ∀ (part : Partition) (s : Fs) (mallocs : List Bool) (σ σ₁ : Sys) (path : List Byte),
    formatAndMount (fun _ => 0#8) 1 620 = .ok (part, s) →
    Run part (fun σ pid call _ => MkdirCall σ pid call) (bootSys { s with mallocs := mallocs }) σ → 1 ∈ σ.live →
    0#8 ∉ path → pathNames path ≠ [] → sysChdir part 1 σ path = .ok (0, σ₁) →
    ∃ cwd σ₂, sysGetcwd part 1 σ₁ (some 0) 512 = .ok (some cwd, σ₂) := by
  intro claim
  obtain ⟨part, s, σ, σ₁, got, σ₂, formatted, run, live, moved, -, ran, test⟩ :=
    upDE_run (List.replicate 32 true ++ [false]) (fun got => got.isNone) (by decide +kernel)
  obtain ⟨cwd, σ₂', got'⟩ := claim part s _ σ σ₁ pathDUpDE formatted run live (by decide) (by decide) moved
  rw [ran] at got'
  cases got'
  cases test

end Examples

end Sparrow
