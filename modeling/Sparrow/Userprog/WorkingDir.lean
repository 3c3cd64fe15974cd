import Sparrow.Fs.Getcwd
import Sparrow.Fs.Mount
import Sparrow.Fs.OpenFiles
import Sparrow.Fs.PathCalls
import Sparrow.Userprog.Boot

/-!
# Working directories

A task records its working directory as a bare inode number. Along every run of calls that
change directories, this number belongs to a live directory as long as no `sys_rmdir` takes
the directory away (`cwd_valid`). `sys_unlink` refuses a file that is open; `sys_rmdir` does not
look for tasks in the directory it removes.
-/

namespace Sparrow
set_option autoImplicit false

/-- Inode `m` is allocated and a directory: its first block holds `.` and `..`. -/
structure IsDirectory (part : Partition) (s : Fs) (m : Nat) : Prop where
  number : m < 4096
  allocated : s.inodeBitmap.Set m
  block : part.sb.dataStartLba ≤ (slot part s.disk m).sec 0
  dot : strEq s.disk (512 * (slot part s.disk m).sec 0) Sparrow.dot = true
  dotEntry : (decodeDirent s.disk (512 * (slot part s.disk m).sec 0) 0).iNo = m ∧
    (decodeDirent s.disk (512 * (slot part s.disk m).sec 0) 0).fType = FileTypes.directory.code
  dotDot : strEq s.disk (512 * (slot part s.disk m).sec 0 + direntSize) Sparrow.dotDot = true
  dotDotEntry : (decodeDirent s.disk (512 * (slot part s.disk m).sec 0) 1).fType = FileTypes.directory.code

/-- The calls that change directories, and `sys_fork`, made by a live task with strings as
arguments. `fork_pid` hands out one of 1024 numbers that no live task has. -/
def DirectoryCall (σ : Sys) (pid : Nat) (call : Call) : Prop :=
  pid ∈ σ.live ∧ match call with
    | .open pathname flags => 0#8 ∉ pathname ∧ flags &&& oCreat ≠ 0
    | .mkdir pathname | .rmdir pathname | .unlink pathname | .chdir pathname => 0#8 ∉ pathname
    | .fork child => child ∉ σ.live ∧ 1 ≤ child ∧ child ≤ 1024
    | _ => False

/-- An empty directory that `sys_rmdir` would remove is no task's working directory and not
given by a path that ends in `.`, and what is created is new. -/
def SparesCwds (part : Partition) (σ : Sys) (pid : Nat) : Call → Prop
  | .rmdir pathname => ∀ f, Removable part (σ.heapOf pid) σ.fs pathname f →
      (pathNames pathname).getLast? ≠ some dot ∧ ∀ q ∈ σ.live, (σ.procs q).cwdInodeNr ≠ f
  | .mkdir pathname => MayCreate part (σ.heapOf pid) σ.fs.malloc pathname
  | .open pathname _ => MayCreate part (σ.heapOf pid) σ.fs pathname
  | _ => True

/-- What every such run keeps. The handles on inodes are the slots of the file table, all of
them on files, and those `X` that forks have added to the same files. -/
structure Settled (part : Partition) (n : Nat) (σ : Sys) (sh : Shape) (X : Nat → Nat) : Prop where
  inv : FsInv part n σ.fs sh (fun a => slotHandles σ.fs.fileTable a + X a)
  files : ∀ a, 0 < slotHandles σ.fs.fileTable a → ¬ sh.dir (σ.fs.inodes a).iNo
  shared : ∀ a, 0 < X a → 0 < slotHandles σ.fs.fileTable a
  few : ∀ a, X a ≤ 5 * σ.live.length
  nodup : σ.live.Nodup
  numbers : ∀ pid ∈ σ.live, 1 ≤ pid ∧ pid ≤ 1024
  cwd : ∀ pid ∈ σ.live, sh.live (σ.procs pid).cwdInodeNr ∧ sh.dir (σ.procs pid).cwdInodeNr

section Calls

variable {part : Partition} {n pid : Nat} {σ σ' : Sys} {sh sh' : Shape} {X : Nat → Nat}

/-- There are at most 1024 tasks with five descriptors each. -/
theorem Settled.room (h : Settled part n σ sh X) (a : Nat) : slotHandles σ.fs.fileTable a + X a + 10 < 2 ^ 32 := by
  have tasks : σ.live.length ≤ 1024 := by
    have sub : σ.live ⊆ List.range' 1 1024 := fun pid mem => by
      obtain ⟨low, high⟩ := h.numbers pid mem
      rw [List.mem_range'_1]
      omega
    have := (h.nodup.subperm sub).length_le
    rwa [List.length_range'] at this
  have := slotHandles_le σ.fs.fileTable a
  have := h.few a
  omega

/-- A handle is on a file that is in a slot. -/
theorem Settled.slot (h : Settled part n σ sh X) {a : Nat} (pos : 0 < slotHandles σ.fs.fileTable a + X a) :
    0 < slotHandles σ.fs.fileTable a := by
  by_cases shared : 0 < X a
  · exact h.shared a shared
  · omega

/-- A call that leaves the handles as they are. -/
theorem Settled.quiet (h : Settled part n σ sh X) {t : Fs} (steady : Steady σ.fs t)
    (inv : FsInv part n t sh' (fun a => slotHandles σ.fs.fileTable a + X a)) (kind : ∀ m, sh.live m → (sh'.dir m ↔ sh.dir m))
    (stays : ∀ q ∈ σ.live, sh'.live (σ.procs q).cwdInodeNr) : Settled part n { σ with fs := t } sh' X := by
  have slots : slotHandles t.fileTable = slotHandles σ.fs.fileTable := slotHandles_congr steady.slots
  refine ⟨?_, fun a pos => ?_, fun a pos => ?_, h.few, h.nodup, h.numbers, fun q live => ⟨stays q live, ?_⟩⟩
  · show FsInv part n t sh' (fun a => slotHandles t.fileTable a + X a)
    rw [slots]
    exact inv
  · change 0 < slotHandles t.fileTable a at pos
    rw [slots] at pos
    have mem := (h.inv.cache.held a).2 (.inl (Nat.add_pos_left pos _))
    show ¬ sh'.dir (t.inodes a).iNo
    rw [steady.numbers a (h.inv.cache.fresh a mem), kind _ (h.inv.alive a mem)]
    exact h.files a pos
  · show 0 < slotHandles t.fileTable a
    rw [slots]
    exact h.shared a pos
  · exact (kind _ (h.cwd q live).1).2 (h.cwd q live).2

theorem Settled.room_two (h : Settled part n σ sh X) (a : Nat) : slotHandles σ.fs.fileTable a + X a + 2 < 2 ^ 32 := by
  have := h.room a
  omega

/-- Descriptor tables are not looked at. -/
theorem Settled.setFdTable (h : Settled part n σ sh X) (pid : Nat) (fdTable : Nat → Int) :
    Settled part n (σ.setFdTable pid fdTable) sh X := by
  refine ⟨h.inv, h.files, h.shared, h.few, h.nodup, h.numbers, fun q live => ?_⟩
  have same : ((σ.setFdTable pid fdTable).procs q).cwdInodeNr = (σ.procs q).cwdInodeNr := by
    show (if q = pid then { σ.procs pid with fdTable := fdTable } else σ.procs q : Proc).cwdInodeNr = _
    split
    · rename_i e
      rw [e]
    · rfl
  rw [same]
  exact h.cwd q live

/-- **`sys_mkdir`**. -/
theorem Settled.mkdir (lay : Layout part n) (h : Settled part n σ sh X) {path : List Byte} (noZero : 0#8 ∉ path)
    (may : MayCreate part (σ.heapOf pid) σ.fs.malloc path) {r : Int} (ran : sysMkdir part pid σ path = .ok (r, σ')) :
    ∃ sh', Settled part n σ' sh' X := by
  simp only [sysMkdir, bind_ok, pure_ok, Prod.exists] at ran
  obtain ⟨ok, t, made, ran⟩ := ran
  cases ran
  obtain ⟨steady, -, inv | ⟨p, f, -, -, fresh, inv⟩⟩ := mkdirPath_inv lay h.room_two h.inv noZero may made
  · exact ⟨sh, h.quiet steady inv (fun _ _ => Iff.rfl) fun q live => (h.cwd q live).1⟩
  · exact ⟨_, h.quiet steady inv (fun _ => Shape.insert_dir fresh) fun q live => .inl (h.cwd q live).1⟩

/-- **`sys_unlink`**: working directories are no files. -/
theorem Settled.unlink (lay : Layout part n) (h : Settled part n σ sh X) {path : List Byte} (noZero : 0#8 ∉ path)
    {r : Int} (ran : sysUnlink part pid σ path = .ok (r, σ')) : ∃ sh', Settled part n σ' sh' X := by
  simp only [sysUnlink, bind_ok, pure_ok, Prod.exists] at ran
  obtain ⟨ok, t, unlinked, ran⟩ := ran
  cases ran
  obtain ⟨steady, ⟨inv, -⟩ | ⟨f, -, file, inv, -⟩⟩ := unlinkPath_inv lay (fun a => by have := h.room a; omega) h.inv noZero
    (fun a pos => .inl (exists_of_slotHandles (h.slot pos))) unlinked
  · exact ⟨sh, h.quiet steady inv (fun _ _ => Iff.rfl) fun q live => (h.cwd q live).1⟩
  · refine ⟨_, h.quiet steady inv (fun _ _ => Iff.rfl) fun q live => ?_⟩
    obtain ⟨alive, dir⟩ := h.cwd q live
    exact ⟨alive, fun e => file (e ▸ dir)⟩

/-- **`sys_rmdir`** of what is no working directory. -/
theorem Settled.rmdir (lay : Layout part n) (h : Settled part n σ sh X) {path : List Byte} (noZero : 0#8 ∉ path)
    (spares : SparesCwds part σ pid (.rmdir path)) {r : Int} (ran : sysRmdir part pid σ path = .ok (r, σ')) :
    ∃ sh', Settled part n σ' sh' X := by
  simp only [sysRmdir, bind_ok, pure_ok, Prod.exists] at ran
  obtain ⟨ok, t, removed, ran⟩ := ran
  cases ran
  obtain ⟨steady, -, inv | ⟨f, removable, -, -, inv⟩⟩ := rmdirPath_inv lay (fun a => by have := h.room a; omega) h.inv noZero
    (fun f removable => (spares f removable).1) (fun f _ dir a pos e => h.files a (h.slot pos) (e ▸ dir)) removed
  · exact ⟨sh, h.quiet steady inv (fun _ _ => Iff.rfl) fun q live => (h.cwd q live).1⟩
  · refine ⟨_, h.quiet steady inv (fun _ _ => Iff.rfl) fun q live => ?_⟩
    exact ⟨(h.cwd q live).1, (spares f removable).2 q live⟩

/-- **`sys_open`** with `O_CREAT`: one slot more, on the new file. -/
theorem Settled.open (lay : Layout part n) (h : Settled part n σ sh X) {path : List Byte} {flags : Nat} (noZero : 0#8 ∉ path)
    (creat : flags &&& oCreat ≠ 0) (may : MayCreate part (σ.heapOf pid) σ.fs path) {r : Int}
    (ran : sysOpen part pid σ path flags = .ok (r, σ')) : ∃ sh', Settled part n σ' sh' X := by
  simp only [sysOpen, bind_ok, pure_ok, Prod.exists] at ran
  obtain ⟨fd, t, fdTable, opened, ran⟩ := ran
  cases ran
  obtain ⟨-, inv, steady, -⟩ | ⟨p, f, g, addr, made, -⟩ := openPath_create lay h.room_two h.inv noZero creat may opened
  · exact ⟨sh, (h.quiet steady inv (fun _ _ => Iff.rfl) fun q live => (h.cwd q live).1).setFdTable _ _⟩
  obtain ⟨-, lt, free⟩ := getFreeSlotInGlobal_some made.slot
  have handles : slotHandles t.fileTable = bump (slotHandles σ.fs.fileTable) addr :=
    slotHandles_fill lt free (by rw [made.fileTable]; simp) fun i ne => by rw [made.fileTable]; simp [ne]
  have more : ∀ a, slotHandles σ.fs.fileTable a ≤ slotHandles t.fileTable a := by
    intro a
    rw [handles]
    by_cases e : a = addr
    · rw [e, bump_self]
      omega
    · rw [bump_of_ne e]
  suffices settled : Settled part n { σ with fs := t } (sh.insert p f (false = true)) X from ⟨_, settled.setFdTable _ _⟩
  refine ⟨?_, fun a pos => ?_, fun a pos => ?_, h.few, h.nodup, h.numbers, fun q live => ?_⟩
  · have inv := made.inv
    rw [bump_add, ← handles] at inv
    exact inv
  · show ¬ (sh.insert p f (false = true)).dir (t.inodes a).iNo
    change 0 < slotHandles t.fileTable a at pos
    by_cases e : a = addr
    · rw [e, made.number]
      show ¬ (if f = f then false = true else sh.dir f)
      rw [if_pos rfl]
      exact nofun
    · rw [handles, bump_of_ne e] at pos
      have mem := (h.inv.cache.held a).2 (.inl (Nat.add_pos_left pos _))
      rw [made.numbers a (h.inv.cache.fresh a mem), Shape.insert_dir made.fresh (h.inv.alive a mem)]
      exact h.files a pos
  · exact Nat.lt_of_lt_of_le (h.shared a pos) (more a)
  · obtain ⟨alive, dir⟩ := h.cwd q live
    exact ⟨.inl alive, (Shape.insert_dir made.fresh alive).2 dir⟩

theorem getPages_inv {H : Nat → Nat} : ∀ (k : Nat) {s : Fs}, FsInv part n s sh H →
    FsInv part n (getPages k s).2 sh H ∧ Browsed s (getPages k s).2 := by
  intro k
  induction k with
  | zero => exact fun inv => ⟨inv, .refl _⟩
  | succ k ih =>
    intro s inv
    rw [getPages]
    split
    · obtain ⟨inv', browsed⟩ := ih inv.malloc
      exact ⟨inv', browsed_malloc.trans browsed⟩
    · exact ⟨inv.malloc, browsed_malloc⟩

/-- What the descriptors a child inherits do to the handles: at most `k` more on each file that
is in a slot. -/
structure Inherited (part : Partition) (n k : Nat) (s t : Fs) (sh : Shape) (X X' : Nat → Nat) : Prop where
  inv : FsInv part n t sh (fun a => slotHandles s.fileTable a + X' a)
  steady : Steady s t
  few : ∀ a, X' a ≤ X a + k
  shared : ∀ a, 0 < X' a → 0 < X a ∨ 0 < slotHandles s.fileTable a

/-- One turn of `update_inode_open_cnts`. -/
theorem updateInodeOpenCnt_inv {me : Option Nat} {fdTable : Nat → Int} {s t : Fs} {i : Nat}
    (inv : FsInv part n s sh (fun a => slotHandles s.fileTable a + X a)) (room : ∀ a, slotHandles s.fileTable a + X a + 2 < 2 ^ 32)
    (h : updateInodeOpenCnt me fdTable s i = .ok t) : ∃ X', Inherited part n 1 s t sh X X' := by
  simp only [updateInodeOpenCnt, bind_ok, assertThat_ok, exists_const] at h
  obtain ⟨-, h⟩ := h
  split at h
  · rw [pure_ok] at h
    subst h
    exact ⟨X, inv, (Browsed.refl _).steady, fun _ => Nat.le_succ _, fun _ => .inl⟩
  simp only [bind_ok] at h
  obtain ⟨g, isG, h⟩ := h
  split at h
  · -- the descriptor of a pipe
    rw [pure_ok] at h
    subst h
    refine ⟨X, inv.setFile _ _, ⟨Nat.le_refl _, fun _ _ => rfl, fun i => ?_, fun i => .inl ?_⟩, fun _ => Nat.le_succ _, fun _ => .inl⟩
    · simp only [Fs.setFile]
      split <;> simp_all
    · simp only [Fs.setFile]
      split <;> simp_all
  split at h
  case h_2 => exact (throw_ok.1 h).elim
  rename_i addr file
  simp only [bind_ok, defined_ok, pure_ok, exists_const] at h
  obtain ⟨-, rfl⟩ := h
  have lt : g < maxFileOpen := by
    simp only [fdLocal2Global, bind_ok, defined_ok, assertThat_ok, pure_ok, exists_const] at isG
    obtain ⟨-, ⟨ge, lt⟩, rfl⟩ := isG
    omega
  have pos : 0 < slotHandles s.fileTable addr := slotHandles_pos lt file
  have mem := (inv.cache.held addr).2 (.inl (Nat.add_pos_left pos _))
  have count := inv.cache.counts addr mem
  have small := room addr
  have retained : s.setInode addr { s.inodes addr with iOpenCnts := addU32 (s.inodes addr).iOpenCnts 1 } = s.retain addr := by
    rw [Fs.retain, addU32_of_lt (by split at count <;> omega)]
  rw [retained]
  have more := inv.retain mem
  rw [add_bump] at more
  refine ⟨bump X addr, more, browsed_retain.steady, fun a => bump_le, fun a some => ?_⟩
  by_cases e : a = addr
  · rw [e]
    exact .inr pos
  · rw [bump_of_ne e] at some
    exact .inl some

/-- `update_inode_open_cnts`. -/
theorem updateInodeOpenCnts_inv {me : Option Nat} {fdTable : Nat → Int} : ∀ (l : List Nat) {s t : Fs} {X : Nat → Nat},
    FsInv part n s sh (fun a => slotHandles s.fileTable a + X a) → (∀ a, slotHandles s.fileTable a + X a + l.length + 2 < 2 ^ 32) →
    l.foldlM (updateInodeOpenCnt me fdTable) s = .ok t → ∃ X', Inherited part n l.length s t sh X X' := by
  intro l
  induction l with
  | nil =>
    intro s t X inv _ h
    rw [List.foldlM_nil, pure_ok] at h
    subst h
    exact ⟨X, inv, (Browsed.refl _).steady, fun _ => Nat.le_refl _, fun _ => .inl⟩
  | cons i rest ih =>
    intro s t X inv room h
    rw [List.foldlM_cons, bind_ok] at h
    obtain ⟨s1, first, h⟩ := h
    simp only [List.length_cons] at room ⊢
    obtain ⟨X1, one⟩ := updateInodeOpenCnt_inv inv (fun a => by have := room a; omega) first
    have slots : slotHandles s1.fileTable = slotHandles s.fileTable := slotHandles_congr one.steady.slots
    obtain ⟨X2, rest⟩ := ih (by rw [slots]; exact one.inv) (fun a => by
      have := room a
      have := one.few a
      rw [slots]
      omega) h
    have inv' := rest.inv
    rw [slots] at inv'
    refine ⟨X2, inv', one.steady.trans rest.steady, fun a => ?_, fun a pos => ?_⟩
    · have := one.few a
      have := rest.few a
      omega
    · rcases rest.shared a pos with old | slot
      · exact one.shared a old
      · rw [slots] at slot
        exact .inr slot

/-- **`sys_fork`**: the child starts in the directory of its parent. -/
theorem Settled.fork (h : Settled part n σ sh X) (live : pid ∈ σ.live) {child : Nat} (fresh : child ∉ σ.live)
    (number : 1 ≤ child ∧ child ≤ 1024) {r : Int} (ran : sysFork pid child σ = .ok (r, σ')) : ∃ X', Settled part n σ' sh X' := by
  simp only [sysFork] at ran
  obtain ⟨inv1, browsed1⟩ := getPages_inv 1 h.inv
  have quiet : ∀ {t : Fs}, FsInv part n t sh (fun a => slotHandles σ.fs.fileTable a + X a) → Browsed σ.fs t →
      Settled part n { σ with fs := t } sh X := fun inv browsed =>
    h.quiet browsed.steady inv (fun _ _ => Iff.rfl) fun q live => (h.cwd q live).1
  split at ran
  · rw [pure_ok] at ran
    cases ran
    exact ⟨X, quiet inv1 browsed1⟩
  simp only [bind_ok, assertThat_ok, exists_const] at ran
  obtain ⟨-, ran⟩ := ran
  obtain ⟨inv2, browsed2⟩ := getPages_inv 3 inv1
  have browsed := browsed1.trans browsed2
  split at ran
  · rw [pure_ok] at ran
    cases ran
    exact ⟨X, quiet inv2 browsed⟩
  simp only [bind_ok, pure_ok] at ran
  obtain ⟨s, counted, ran⟩ := ran
  cases ran
  have settled := quiet inv2 browsed
  obtain ⟨X', inherited⟩ := updateInodeOpenCnts_inv localFds settled.inv (fun a => by
    have := settled.room a
    show _ + 5 + 2 < 2 ^ 32
    omega) counted
  have slots : slotHandles s.fileTable = slotHandles (getPages 3 (getPages 1 σ.fs).2).2.fileTable :=
    slotHandles_congr inherited.steady.slots
  refine ⟨X', ?_, fun a pos => ?_, fun a pos => ?_, fun a => ?_, List.nodup_cons.2 ⟨fresh, h.nodup⟩, fun q mem => ?_, fun q mem => ?_⟩
  · show FsInv part n s sh (fun a => slotHandles s.fileTable a + X' a)
    rw [slots]
    exact inherited.inv
  · change 0 < slotHandles s.fileTable a at pos
    rw [slots] at pos
    have mem := (settled.inv.cache.held a).2 (.inl (Nat.add_pos_left pos _))
    show ¬ sh.dir (s.inodes a).iNo
    rw [inherited.steady.numbers a (settled.inv.cache.fresh a mem)]
    exact settled.files a pos
  · show 0 < slotHandles s.fileTable a
    rw [slots]
    rcases inherited.shared a pos with old | slot
    · exact settled.shared a old
    · exact slot
  · have one : X' a ≤ X a + 5 := inherited.few a
    have := h.few a
    show X' a ≤ 5 * (σ.live.length + 1)
    omega
  · rcases List.mem_cons.1 mem with rfl | mem
    · exact number
    · exact h.numbers q mem
  · show sh.live (if q = child then { σ.procs pid with parentPid := pid } else σ.procs q : Proc).cwdInodeNr ∧
      sh.dir (if q = child then { σ.procs pid with parentPid := pid } else σ.procs q : Proc).cwdInodeNr
    split
    · exact h.cwd pid live
    · rename_i other
      exact h.cwd q ((List.mem_cons.1 mem).resolve_left other)

/-- **`sys_chdir`** goes to a live directory. -/
theorem Settled.chdir (lay : Layout part n) (h : Settled part n σ sh X) {path : List Byte} (noZero : 0#8 ∉ path)
    {r : Int} (ran : sysChdir part pid σ path = .ok (r, σ')) : Settled part n σ' sh X := by
  simp only [sysChdir, bind_ok, Prod.exists] at ran
  obtain ⟨found, s1, search, s2, closed, ran⟩ := ran
  obtain ⟨q, inv1, browsed1, dirAt, what⟩ := searchFile_inv lay h.room_two h.inv noZero search
  obtain ⟨inv2, browsed2⟩ := closeParent_inv (h.room_two _) inv1 closed
  have quiet := h.quiet (browsed1.trans browsed2).steady inv2 (fun _ _ => Iff.rfl) fun q live => (h.cwd q live).1
  split at ran
  · rename_i m number type
    rw [pure_ok] at ran
    cases ran
    have target : sh.live m ∧ sh.dir m := by
      cases what with
      | none no => rw [number] at no; cases no
      | file _ _ _ type' => rw [type] at type'; cases type'
      | root number' =>
        rw [number] at number'
        cases number'
        exact ⟨h.inv.tree.naming.top.1, h.inv.tree.naming.top.2.1⟩
      | dir at_ isDir number' =>
        rw [number] at number'
        cases number'
        obtain ⟨live, kind⟩ := h.inv.itemDir dirAt.live dirAt.dir at_
        exact ⟨live, kind.1 isDir⟩
    refine ⟨quiet.inv, quiet.files, quiet.shared, quiet.few, quiet.nodup, quiet.numbers, fun p live => ?_⟩
    show sh.live (if p = pid then { σ.procs pid with cwdInodeNr := m } else σ.procs p : Proc).cwdInodeNr ∧
      sh.dir (if p = pid then { σ.procs pid with cwdInodeNr := m } else σ.procs p : Proc).cwdInodeNr
    split
    · exact target
    · exact h.cwd p live
  · rw [pure_ok] at ran
    cases ran
    exact quiet

/-- Every call that spares the working directories keeps them. -/
theorem Settled.step (lay : Layout part n) (h : Settled part n σ sh X) {call : Call} {r : Int} (allowed : DirectoryCall σ pid call)
    (spares : SparesCwds part σ pid call) (ran : exec part pid σ call = .ok (r, σ')) : ∃ sh' X', Settled part n σ' sh' X' := by
  obtain ⟨live, among⟩ := allowed
  cases call with
  | «open» pathname flags =>
    obtain ⟨sh', settled⟩ := h.open lay among.1 among.2 spares ran
    exact ⟨sh', X, settled⟩
  | mkdir pathname =>
    obtain ⟨sh', settled⟩ := h.mkdir lay among spares ran
    exact ⟨sh', X, settled⟩
  | rmdir pathname =>
    obtain ⟨sh', settled⟩ := h.rmdir lay among spares ran
    exact ⟨sh', X, settled⟩
  | unlink pathname =>
    obtain ⟨sh', settled⟩ := h.unlink lay among ran
    exact ⟨sh', X, settled⟩
  | chdir path => exact ⟨sh, X, h.chdir lay among ran⟩
  | fork child =>
    obtain ⟨X', settled⟩ := h.fork live among.1 among.2 ran
    exact ⟨sh, X', settled⟩
  | close | read | write | lseek | opendir | readdir | closedir | getcwd | stat | pipe | fdRedirect | execv | exit => exact among.elim

/-- The tasks start in the root directory. -/
theorem settled_bootSys {s : Fs} (inv : FsInv part n s .root (fun _ => 0)) (empty : s.fileTable = fun _ => File.empty)
    (mallocs : List Bool) : Settled part n (bootSys { s with mallocs := mallocs }) .root (fun _ => 0) := by
  have none : ∀ a, slotHandles s.fileTable a = 0 := by
    intro a
    rw [slotHandles, empty]
    simp [File.empty]
  refine ⟨?_, fun a pos => ?_, by rintro _ ⟨⟩, fun _ => Nat.zero_le _, by simp [bootSys], by simp [bootSys], fun _ _ => ⟨rfl, rfl⟩⟩
  · have same : (fun a => slotHandles s.fileTable a + 0) = fun _ => 0 := funext none
    show FsInv part n { s with mallocs := mallocs } .root (fun a => slotHandles s.fileTable a + 0)
    rw [same]
    exact inv.heap mallocs
  · rw [show slotHandles (bootSys { s with mallocs := mallocs }).fs.fileTable a = slotHandles s.fileTable a from rfl, none] at pos
    cases pos

/-- A live directory is allocated and begins with `.` and `..`. -/
theorem FsInv.isDirectory {s : Fs} {H : Nat → Nat} {m : Nat} (inv : FsInv part n s sh H) (live : sh.live m) (dir : sh.dir m) :
    IsDirectory part s m := by
  obtain ⟨wf, -⟩ := (inv.tree.node m live).dirWf dir
  have low := inv.tree.low m live
  have ref : blockRef s.disk (slot part s.disk m) 0 = (slot part s.disk m).sec 0 := blockRef_direct (by omega)
  have block : DataBlock part n s.blockBitmap (blockRef s.disk (slot part s.disk m) 0) := wf.blocks.block 0 (by omega) wf.first
  obtain ⟨x, dot, isDot, number, isDir⟩ := wf.dot
  obtain ⟨y, dotDot, isDotDot, -, isDir'⟩ := wf.dotDot
  have first : decodeDirent s.disk (512 * (slot part s.disk m).sec 0) 0 = x.entry := by
    rw [← ref]
    exact dot.entry
  have second : decodeDirent s.disk (512 * (slot part s.disk m).sec 0) 1 = y.entry := by
    rw [← ref]
    exact dotDot.entry
  refine ⟨by omega, (inv.bits m (by omega)).2 live, by rw [← ref]; exact block.ge, (strEq_item first .dot).2 isDot, ?_,
    (strEq_item second .dotDot).2 isDotDot, ?_⟩
  · rw [first]
    exact ⟨number, by simp [Item.entry, Item.fType, isDir]⟩
  · rw [second]
    simp [Item.entry, Item.fType, isDir']

end Calls

section Runs

variable {disk : Image} {startLba secCnt sects n : Nat} {part : Partition} {s : Fs} {σ : Sys}

/-- What every such run keeps, from a fresh partition on. -/
theorem settled_of_run (lt : secCnt < 2 ^ 32) (sizes : formatSizes secCnt = .ok (sects, n)) (blocks : 8 ≤ n)
    (formatted : formatAndMount disk startLba secCnt = .ok (part, s)) (mallocs : List Bool)
    (run : Run part (fun σ pid call _ => DirectoryCall σ pid call ∧ SparesCwds part σ pid call)
      (bootSys { s with mallocs := mallocs }) σ) : Layout part n ∧ ∃ sh X, Settled part n σ sh X := by
  obtain ⟨lay, inv⟩ := formatAndMount_inv lt sizes blocks formatted
  refine ⟨lay, run.invariant (I := fun σ => ∃ sh X, Settled part n σ sh X) ?_
    ⟨_, _, settled_bootSys inv (formatAndMount_fileTable formatted) mallocs⟩⟩
  rintro _ _ _ _ _ ⟨sh, X, settled⟩ ⟨allowed, spares⟩ ran
  exact settled.step lay allowed spares ran

end Runs

/-- **Working directories stay directories.** -/
theorem cwd_valid {disk : Image} {startLba secCnt sects n : Nat} {part : Partition} {s : Fs} {σ : Sys} (lt : secCnt < 2 ^ 32)
    (sizes : formatSizes secCnt = .ok (sects, n)) (blocks : 8 ≤ n) (formatted : formatAndMount disk startLba secCnt = .ok (part, s))
    (mallocs : List Bool)
    (run : Run part (fun σ pid call _ => DirectoryCall σ pid call ∧ SparesCwds part σ pid call)
      (bootSys { s with mallocs := mallocs }) σ) {pid : Nat} (live : pid ∈ σ.live) :
    IsDirectory part σ.fs (σ.procs pid).cwdInodeNr ∧
      ∀ buf size, buf ≠ none → maxPathLen ≤ size + 1 → sysGetcwd part pid σ buf size ≠ .error .assert := by
  obtain ⟨lay, sh, X, settled⟩ := settled_of_run lt sizes blocks formatted mallocs run
  obtain ⟨alive, dir⟩ := settled.cwd pid live
  exact ⟨settled.inv.isDirectory alive dir, fun buf size given large =>
    (sysGetcwd_ensures lay settled.room_two settled.inv alive dir given large).1⟩

section Examples

variable {part : Partition} {σ : Sys} {pid : Nat} {me : Option Nat} {s : Fs} {path : List Byte}

/-- A test that is true of these calls. -/
def directoryCallTest (σ : Sys) (pid : Nat) (call : Call) : Bool :=
  decide (pid ∈ σ.live) && match call with
    | .open pathname flags => decide (0#8 ∉ pathname ∧ flags &&& oCreat ≠ 0)
    | .mkdir pathname | .rmdir pathname | .unlink pathname | .chdir pathname => decide (0#8 ∉ pathname)
    | .fork child => decide (child ∉ σ.live ∧ 1 ≤ child ∧ child ≤ 1024)
    | _ => false

theorem directoryCallTest_sound {call : Call} (h : directoryCallTest σ pid call = true) : DirectoryCall σ pid call := by
  cases call <;> simp_all [directoryCallTest, DirectoryCall]

def mayCreateTest (part : Partition) (me : Option Nat) (s : Fs) (path : List Byte) : Bool :=
  match searchFile part me s path with
  | .error _ => true
  | .ok (r, t) => ((List.range 256).any fun m => decide (¬ s.inodeBitmap.Set m)) &&
      match searchEntry part t.disk (t.inodes r.parentDir.inode) (lastName r.searchedPath) with
      | .ok none => true
      | _ => false

theorem mayCreateTest_sound (h : mayCreateTest part me s path = true) : MayCreate part me s path := by
  intro r t search _ _
  rw [mayCreateTest, search] at h
  simp only [Bool.and_eq_true, List.any_eq_true, List.mem_range, decide_eq_true_eq] at h
  obtain ⟨free, missed⟩ := h
  refine ⟨free, ?_⟩
  split at missed
  · assumption
  · cases missed

/-- A test that is true of calls that spare the working directories. -/
def sparesTest (part : Partition) (σ : Sys) (pid : Nat) : Call → Bool
  | .rmdir pathname =>
    match searchFile part (σ.heapOf pid) σ.fs pathname with
    | .error _ => true
    | .ok (r, _) => decide ((pathNames pathname).getLast? ≠ some dot ∧ ∀ q ∈ σ.live, some (σ.procs q).cwdInodeNr ≠ r.inodeNo)
  | .mkdir pathname => mayCreateTest part (σ.heapOf pid) σ.fs.malloc pathname
  | .open pathname _ => mayCreateTest part (σ.heapOf pid) σ.fs pathname
  | _ => true

theorem sparesTest_sound {call : Call} (h : sparesTest part σ pid call = true) : SparesCwds part σ pid call := by
  cases call with
  | rmdir pathname =>
    rintro f ⟨r, t, search, number, -⟩
    rw [sparesTest, search] at h
    obtain ⟨last, others⟩ := of_decide_eq_true h
    refine ⟨last, fun q live e => others q live ?_⟩
    rw [number, e]
  | mkdir pathname => exact mayCreateTest_sound h
  | «open» pathname flags => exact mayCreateTest_sound h
  | _ => trivial

/-- The directory `/d`, and `/d/e`. -/
def pathD : List Byte := [slash, 0x64#8]

def pathDE : List Byte := [slash, 0x64#8, slash, 0x65#8]

/-- A child makes a directory in its parent's and goes there; the parent removes another. -/
theorem cwd_valid_nested : ∃ part s σ, formatAndMount (fun _ => 0#8) 1 620 = .ok (part, s) ∧
    Run part (fun σ pid call _ => DirectoryCall σ pid call ∧ SparesCwds part σ pid call) (bootSys s) σ ∧
    (σ.procs 3).cwdInodeNr = 2 ∧ IsDirectory part σ.fs 2 ∧ sysGetcwd part 3 σ (some 0) 512 ≠ .error .assert := by
  have ran : returns (formatAndMount (fun _ => 0#8) 1 620) (fun x => returns (runCalls x.1
      (fun σ pid call _ => directoryCallTest σ pid call && sparesTest x.1 σ pid call)
      [(1, .mkdir pathD), (1, .chdir pathD), (1, .fork 3), (3, .mkdir pathDE), (3, .chdir pathDE), (1, .mkdir pathF), (1, .rmdir pathF)]
      (bootSys x.2)) fun σ => decide (3 ∈ σ.live ∧ (σ.procs 3).cwdInodeNr = 2)) = true := by decide +kernel
  obtain ⟨⟨part, s⟩, formatted, ran⟩ := returns_true.1 ran
  obtain ⟨σ, ran, reached⟩ := returns_true.1 ran
  obtain ⟨live, there⟩ := of_decide_eq_true reached
  have run : Run part (fun σ pid call _ => DirectoryCall σ pid call ∧ SparesCwds part σ pid call) (bootSys s) σ := by
    refine runCalls_run (fun _ _ _ _ test => ?_) _ _ ran
    rw [Bool.and_eq_true] at test
    exact ⟨directoryCallTest_sound test.1, sparesTest_sound test.2⟩
  obtain ⟨valid, cwd⟩ := cwd_valid (by decide) (show formatSizes 620 = .ok (1, 8) from rfl) (by decide) formatted s.mallocs run live
  rw [there] at valid
  exact ⟨part, s, σ, formatted, run, there, valid, cwd (some 0) 512 nofun (by decide)⟩

/-- Process 1 is in `/d` when its child removes that directory. -/
theorem rmdir_of_cwd : ∃ part s σ, formatAndMount (fun _ => 0#8) 1 620 = .ok (part, s) ∧
    Run part (fun σ pid call _ => DirectoryCall σ pid call) (bootSys s) σ ∧ 1 ∈ σ.live ∧ (σ.procs 1).cwdInodeNr = 1 ∧
    ¬ IsDirectory part σ.fs 1 ∧ sysGetcwd part 1 σ (some 0) 512 = .error .assert := by
  have ran : returns (freshRun 620 (fun σ pid call _ => directoryCallTest σ pid call)
      [(1, .mkdir pathD), (1, .chdir pathD), (1, .fork 3), (3, .rmdir pathD)])
      (fun x => decide (1 ∈ x.2.live ∧ (x.2.procs 1).cwdInodeNr = 1 ∧ ¬ x.2.fs.inodeBitmap.Set 1) &&
        match sysGetcwd x.1 1 x.2 (some 0) 512 with
        | .error .assert => true
        | _ => false) = true := by decide +kernel
  obtain ⟨⟨part, σ⟩, ran, reached⟩ := returns_true.1 ran
  obtain ⟨s, formatted, ran⟩ := freshRun_ok ran
  rw [Bool.and_eq_true, decide_eq_true_eq] at reached
  obtain ⟨⟨live, cwd, free⟩, panics⟩ := reached
  refine ⟨part, s, σ, formatted, runCalls_run (fun _ _ _ _ => directoryCallTest_sound) _ _ ran, live, cwd,
    fun is => free is.allocated, ?_⟩
  split at panics
  · assumption
  · cases panics

end Examples

end Sparrow
