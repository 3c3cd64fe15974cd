import Sparrow.Kernel.PagingRun
import Sparrow.Userprog.Process
import Sparrow.Userprog.WaitExit

/-!
# The pages of a process

What `sys_fork`, `sys_exit` and `sys_wait` do to pages and frames, joined with the tasks of
`Userprog.WaitExit` and the descriptors of `Userprog.Process` to the life of a child from
its fork until it is reaped. Its bitmap is taken with `DIV_ROUND_UP` and given back
without, and `thread_exit` reads the `pid` of the child from a page it has just unmapped,
so no such life leaves everything as it was (`Life.leaks`, `lifeCycle_never_restored`).
-/

namespace Sparrow.LifeCycle
set_option autoImplicit false

open Paging

/-- The kernel pages of a process: its PCB, its bitmap of virtual pages and its page directory. -/
structure TaskPages where
  pcb : Nat
  vaddrBtmp : Nat
  pgdir : Nat
  deriving DecidableEq, Repr

/-- `DIV_ROUND_UP(btmp_bytes_len, PG_SIZE)`. -/
def bitmapPgCnt : Nat := (userBitmapLen + (pgSize - 1)) / pgSize

/-- A new page directory, without user entries, and a copy of the bitmap of the parent. -/
def newSpace (s : Memory) (parent child : Nat) : Memory :=
  { s with
    pde := fun task d => if task = some child then none else s.pde task d
    userVaddr := fun p => if p = child then s.userVaddr parent else s.userVaddr p }

/-- `get_a_page_without_opvaddrbitmap` for the copy of a page; without a frame the copy that
follows faults. -/
def getAPageWithoutOpvaddrbitmap (s : Memory) (cur : Option Nat) (pf : PoolFlags) (vaddr : Nat) : Exec Memory :=
  match palloc s pf with
  | (none, _) => throw .undefined
  | (some pagePhyaddr, s) => pageTableAdd s cur vaddr pagePhyaddr

/-- The loop of `copy_body_stack3` over the bits of byte `idxByte`. -/
def copyByte (vaddrBtmp : Bitmap) (child : Nat) (s : Memory) (idxByte : Nat) : Exec Memory :=
  if vaddrBtmp.bits idxByte = 0#8 then return s
  else (List.range 8).foldlM (fun s idxBit =>
    if bitmapScanTest vaddrBtmp (idxByte * 8 + idxBit) then
      getAPageWithoutOpvaddrbitmap s (some child) .user ((idxByte * 8 + idxBit) * pgSize + userVaddrStart)
    else return s) s

/-- `copy_body_stack3`. -/
def copyBodyStack3 (s : Memory) (parent child : Nat) : Exec Memory :=
  (List.range (s.userVaddr parent).btmpBytesLen).foldlM (copyByte (s.userVaddr parent) child) s

/-- The pages `sys_fork` takes: the PCB, a buffer, the bitmap and the page directory. -/
def takePages (s : Memory) (parent : Nat) : Exec (Option (TaskPages × Nat) × Memory) := do
  match ← Paging.mallocPage s (some parent) .kernel 1 with
  | (none, s) => return (none, s)
  | (some pcb, s) =>
    match ← Paging.mallocPage s (some parent) .kernel 1 with
    | (none, s) => return (none, s)
    | (some bufPage, s) =>
      match ← Paging.mallocPage s (some parent) .kernel bitmapPgCnt with
      | (none, s) => return (none, s)
      | (some vaddrBtmp, s) =>
        match ← Paging.mallocPage s (some parent) .kernel 1 with
        | (none, s) => return (none, s)
        | (some pgdir, s) => return (some (⟨pcb, vaddrBtmp, pgdir⟩, bufPage), s)

/-- The pages of `sys_fork`. -/
def forkPages (s : Memory) (parent child : Nat) : Exec (Option TaskPages × Memory) := do
  match ← takePages s parent with
  | (none, s) => return (none, s)
  | (some (pages, bufPage), s) =>
    let s ← copyBodyStack3 (newSpace s parent child) parent child
    let s ← Paging.mfreePage s (some parent) .kernel bufPage 1
    return (some pages, s)

/-- `free_a_phy_page`. -/
def freeAPhyPage (s : Memory) (pgPhyAddr : Nat) : Memory := pfree s pgPhyAddr

/-- The turn of `release_prog_resource` for one page table entry. -/
def releasePte (table : Nat) (s : Memory) (i : Nat) : Exec Memory :=
  if (s.pte table i).present then return freeAPhyPage s (s.pte table i).phy else return s

/-- The turn of `release_prog_resource` for one directory entry. -/
def releasePde (child : Nat) (s : Memory) (d : Nat) : Exec Memory :=
  match s.pde (some child) d with
  | none => return s
  | some table => do
    let s ← (List.range 1024).foldlM (releasePte table) s
    return freeAPhyPage s table

/-- `release_prog_resource` up to the descriptors. Here the length of the bitmap is not
rounded up. -/
def releaseProgResource (s : Memory) (child : Nat) (pages : TaskPages) : Exec Memory := do
  let s ← (List.range 768).foldlM (releasePde child) s
  Paging.mfreePage s (some child) .kernel pages.vaddrBtmp ((s.userVaddr child).btmpBytesLen / pgSize)

/-- The pages of `thread_exit`, called by `reaper`: after the PCB is given back its `pid` is
read from it. The result says whether the page was mapped then. The task and its number are
taken off by `Reap.threadExit`; `Reaped` joins the two. -/
def threadExit (s : Memory) (reaper : Nat) (pages : TaskPages) : Exec (Bool × Memory) := do
  let s ← Paging.mfreePage s (some reaper) .kernel pages.pgdir 1
  let s ← Paging.mfreePage s (some reaper) .kernel pages.pcb 1
  let e ← s.readPte (some reaper) pages.pcb
  return (e.present, s)

/-! The life of a child. -/

/-- Pages, tasks and descriptors. -/
structure World where
  mem : Memory
  tasks : Reap.Tasks
  sys : Sys

/-- A call of the page allocator by process `p` that returned. -/
inductive PageCall (p : Nat) (pf : PoolFlags) : Memory → Memory → Prop where
  | malloc {s s' : Memory} {n : Nat} {got : Option Nat} (call : Paging.mallocPage s (some p) pf n = .ok (got, s')) :
    PageCall p pf s s'
  | get {s s' : Memory} {vaddr : Nat} {got : Option Nat} (call : getAPage s (some p) pf vaddr = .ok (got, s')) :
    PageCall p pf s s'
  | free {s s' : Memory} {vaddr n : Nat} (call : Paging.mfreePage s (some p) pf vaddr n = .ok s') : PageCall p pf s s'

/-- What happens while the child lives: it works on its own pages, the parent works on its
pages and those of the kernel, the scheduler switches, and a task may begin to wait. The
list records the calls of the parent. -/
inductive Work (parent child : Nat) : World → List (Memory × Memory) → World → Prop where
  | done {w : World} : Work parent child w [] w
  | child {w w' : World} {own : List (Memory × Memory)} {mem : Memory} (call : PageCall child .user w.mem mem)
    (rest : Work parent child { w with mem := mem } own w') : Work parent child w own w'
  | parent {w w' : World} {own : List (Memory × Memory)} {mem : Memory} {pf : PoolFlags} (call : PageCall parent pf w.mem mem)
    (rest : Work parent child { w with mem := mem } own w') : Work parent child w ((w.mem, mem) :: own) w'
  | schedule {w w' : World} {own : List (Memory × Memory)} {tasks : Reap.Tasks} {pid : Nat}
    (switch : Reap.act w.tasks (.schedule pid) = .ok tasks)
    (rest : Work parent child { w with tasks := tasks } own w') : Work parent child w own w'
  | wait {w w' : World} {own : List (Memory × Memory)} {tasks : Reap.Tasks} {t : Reap.TaskStruct}
    (current : w.tasks.current = some t)
    (early : ∀ c ∈ w.tasks.allList, c.parentPid = t.pid → c.status ≠ .hanging)
    (waits : Reap.act w.tasks .wait = .ok tasks)
    (rest : Work parent child { w with tasks := tasks } own w') : Work parent child w own w'

/-- A successful `sys_fork` by the running task. -/
structure Forks (w w' : World) (parent : Reap.TaskStruct) (child : Nat) (pages : TaskPages) : Prop where
  current : w.tasks.current = some parent
  number : ∃ tasks, Reap.allocatePid w.tasks = .ok (child, tasks)
  mem : forkPages w.mem parent.pid child = .ok (some pages, w'.mem)
  tasks : Reap.sysFork parent 4 w.tasks = .ok w'.tasks
  sys : Sparrow.sysFork parent.pid child w.sys = .ok (child, w'.sys)

/-- `sys_exit` of the child. -/
structure Exits (w w' : World) (child : Nat) (pages : TaskPages) : Prop where
  mem : releaseProgResource w.mem child pages = .ok w'.mem
  tasks : ∃ t status, w.tasks.current = some t ∧ t.pid = child ∧ Reap.sysExit t status w.tasks = .ok w'.tasks
  sys : Sparrow.sysExit child w.sys = .ok w'.sys

/-- `sys_wait` by `reaper` finds the child. -/
structure Reaped (w w' : World) (reaper : Reap.TaskStruct) (child : Nat) (pages : TaskPages) (mapped : Bool) : Prop where
  current : w.tasks.current = some reaper
  finds : ∃ c, w.tasks.allList.find? (fun t => t.parentPid = (reaper.pid : Int) ∧ t.status = .hanging) = some c ∧ c.pid = child
  mem : threadExit w.mem reaper.pid pages = .ok (mapped, w'.mem)
  tasks : w'.tasks = Reap.sysWait reaper w.tasks
  sys : w'.sys = w.sys

/-- The life of a child: fork, work, exit and the reaping by its parent or by `init`. -/
structure Life where
  before : World
  forked : World
  worked : World
  exited : World
  waited : World
  after : World
  parent : Reap.TaskStruct
  reaper : Reap.TaskStruct
  child : Nat
  pages : TaskPages
  own : List (Memory × Memory)
  own' : List (Memory × Memory)
  mapped : Bool
  layout : Paging.Layout before.mem
  fork : Forks before forked parent child pages
  work : Work parent.pid child forked own worked
  exit : Exits worked exited child pages
  work' : Work parent.pid child exited own' waited
  reap : Reaped waited after reaper child pages mapped

/-- The parent itself changed the bit. -/
def Life.Own (c : Life) (bit : Memory → Prop) : Prop := ∃ m ∈ c.own ++ c.own', ¬ (bit m.1 ↔ bit m.2)

/-- Everything is as it was, but for what the parent did itself, and `thread_exit` found the
PCB mapped. -/
structure Life.Restored (c : Life) : Prop where
  pools : ∀ pf k, ¬ c.Own (fun s => s.Marked pf k) → (c.after.mem.Marked pf k ↔ c.before.mem.Marked pf k)
  kernelVaddr : ∀ k, ¬ c.Own (fun s => s.kernelVaddr.Set k) →
    (c.after.mem.kernelVaddr.Set k ↔ c.before.mem.kernelVaddr.Set k)
  pids : ∀ k, c.after.tasks.pidBitmap.Set k ↔ c.before.tasks.pidBitmap.Set k
  inodes : ∀ addr, (c.after.sys.fs.inodes addr).iOpenCnts = (c.before.sys.fs.inodes addr).iOpenCnts
  pipes : ∀ i, isPipe c.before.sys.fs i = true → (c.after.sys.fs.fileTable i).fdPos = (c.before.sys.fs.fileTable i).fdPos
  reads : c.mapped = true

section Pages

variable {s s' : Memory} {cur got : Option Nat} {pf : PoolFlags} {n vaddr f : Nat} {b : Bool}

theorem setVaddr_readPte (sp : Option Nat) (v : Bitmap) : (s.setVaddr sp v).readPte cur vaddr = s.readPte cur vaddr := by
  cases sp <;> rfl

theorem mfreePage_one (call : Paging.mfreePage s cur pf vaddr 1 = .ok s') {e : Pte} (read : s'.readPte cur vaddr = .ok e) :
    e.present = false := by
  simp only [Paging.mfreePage, unmapPages, bind_ok, assertThat_ok, defined_ok, exists_const, pure_ok] at call
  obtain ⟨-, e0, -, -, s2, ⟨e1, -, -, s1, removed, rfl⟩, -, rfl⟩ := call
  rw [setVaddr_readPte] at read
  simp only [pageTablePteRemove] at removed
  split at removed
  · rename_i table isTable
    cases removed
    simp only [Memory.readPte] at read
    split at read
    · rename_i table' isTable'
      have same : some table = some table' := isTable.symm.trans isTable'
      cases same
      cases read
      simp [Memory.setPte]
    · cases read
  · cases removed

/-- `thread_exit` reads the PCB when its page is no longer mapped. -/
theorem threadExit_unmapped {reaper : Nat} {pages : TaskPages} (call : threadExit s reaper pages = .ok (b, s')) : b = false := by
  simp only [threadExit, bind_ok, pure_ok] at call
  obtain ⟨s1, -, s2, freed, e, read, same⟩ := call
  cases same
  exact mfreePage_one freed read

/-! The bits of virtual pages. -/

theorem palloc_vaddr (take : palloc s pf = (got, s')) (sp : Option Nat) : s'.vaddr sp = s.vaddr sp := by
  simp only [palloc] at take
  split at take
  · cases take
    cases sp <;> rfl
  · cases take
    exact setPool_vaddr _ _ _ _

theorem pageTableAdd_vaddr (add : pageTableAdd s cur vaddr f = .ok s') (sp : Option Nat) : s'.vaddr sp = s.vaddr sp := by
  simp only [pageTableAdd] at add
  split at add
  · simp only [bind_ok, assertThat_ok, exists_const, pure_ok] at add
    obtain ⟨-, rfl⟩ := add
    cases sp <;> rfl
  · generalize taken : palloc s .kernel = result at add
    obtain ⟨got, s1⟩ := result
    simp only [bind_ok, assertThat_ok, exists_const, pure_ok] at add
    obtain ⟨-, rfl⟩ := add
    rw [← palloc_vaddr taken sp]
    cases sp <;> rfl

theorem mapPages_vaddr (sp : Option Nat) : ∀ {n vaddr : Nat} {s : Memory}, mapPages cur pf n vaddr s = .ok (b, s') →
    s'.vaddr sp = s.vaddr sp := by
  intro n
  induction n with
  | zero =>
    intro vaddr s done
    cases done
    rfl
  | succ n ih =>
    intro vaddr s done
    simp only [mapPages] at done
    split at done
    · rename_i taken
      cases done
      exact palloc_vaddr taken sp
    · rename_i taken
      rw [bind_ok] at done
      obtain ⟨s2, add, rest⟩ := done
      rw [ih rest, pageTableAdd_vaddr add, palloc_vaddr taken]

/-- The virtual pages `malloc_page` marks. -/
theorem mallocPage_vaddr (call : Paging.mallocPage s cur pf n = .ok (some vaddr, s')) :
    ∃ i, vaddr = pageAddr (space pf cur) i ∧
      (∀ k, k < n → i + k < 8 * (s.vaddr (space pf cur)).btmpBytesLen ∧ ¬ (s.vaddr (space pf cur)).Set (i + k)) ∧
      ∀ sp, s'.vaddr sp = if sp = space pf cur then bitmapSetRun (s.vaddr (space pf cur)) i true n else s.vaddr sp := by
  simp only [Paging.mallocPage, bind_ok, assertThat_ok, exists_const] at call
  obtain ⟨-, ⟨run, s1⟩, found, call⟩ := call
  rcases vaddrGet_cases found with ⟨rfl, rfl⟩ | ⟨i, -, rfl, scan, rfl⟩
  · cases call
  · rw [bind_ok] at call
    obtain ⟨⟨done, s2⟩, mapped, call⟩ := call
    cases done with
    | false => cases call
    | true =>
      cases call
      refine ⟨i, rfl, scan, fun sp => ?_⟩
      rw [mapPages_vaddr sp mapped, setVaddr_vaddr]

theorem unmapPages_vaddr (sp : Option Nat) {user : Bool} : ∀ {n vaddr : Nat} {s : Memory},
    unmapPages cur user n vaddr s = .ok s' → s'.vaddr sp = s.vaddr sp := by
  intro n
  induction n with
  | zero =>
    intro vaddr s done
    cases done
    rfl
  | succ n ih =>
    intro vaddr s done
    simp only [unmapPages, bind_ok, assertThat_ok, exists_const] at done
    obtain ⟨e, -, -, s1, removed, rest⟩ := done
    rw [ih rest]
    simp only [pageTablePteRemove] at removed
    split at removed
    · cases removed
      have freed : (pfree s e.phy).vaddr sp = s.vaddr sp := setPool_vaddr _ _ _ _
      rw [← freed]
      cases sp <;> rfl
    · cases removed

/-- The virtual pages `mfree_page` clears. -/
theorem mfreePage_vaddr (call : Paging.mfreePage s cur pf vaddr n = .ok s') (sp : Option Nat) :
    s'.vaddr sp = if sp = space pf cur then bitmapSetRun (s.vaddr (space pf cur)) (bitIdx (space pf cur) vaddr) false n
      else s.vaddr sp := by
  simp only [Paging.mfreePage, bind_ok, assertThat_ok, defined_ok, exists_const, pure_ok] at call
  obtain ⟨-, e, -, -, s1, unmapped, -, rfl⟩ := call
  rw [setVaddr_vaddr, unmapPages_vaddr _ unmapped, unmapPages_vaddr _ unmapped]

/-- Only a run of bits of one space has changed. -/
def Marks (s s' : Memory) (sp0 : Option Nat) : Prop :=
  ∃ i v m, ∀ sp, s'.vaddr sp = if sp = sp0 then bitmapSetRun (s.vaddr sp0) i v m else s.vaddr sp

theorem Marks.len {sp0 : Option Nat} (h : Marks s s' sp0) (sp : Option Nat) :
    (s'.vaddr sp).btmpBytesLen = (s.vaddr sp).btmpBytesLen := by
  obtain ⟨i, v, m, all⟩ := h
  rw [all]
  split
  · rename_i same
    rw [bitmapSetRun_len, same]
  · rfl

theorem Marks.other {sp0 sp : Option Nat} (h : Marks s s' sp0) (ne : sp ≠ sp0) : s'.vaddr sp = s.vaddr sp := by
  obtain ⟨i, v, m, all⟩ := h
  rw [all, if_neg ne]

theorem mallocPage_marks (call : Paging.mallocPage s cur pf n = .ok (got, s')) : Marks s s' (space pf cur) := by
  simp only [Paging.mallocPage, bind_ok, assertThat_ok, exists_const] at call
  obtain ⟨-, ⟨run, s1⟩, found, call⟩ := call
  rcases vaddrGet_cases found with ⟨rfl, rfl⟩ | ⟨i, -, rfl, -, rfl⟩
  · cases call
    refine ⟨0, true, 0, fun sp => ?_⟩
    split
    · rename_i same
      rw [same]
      rfl
    · rfl
  · rw [bind_ok] at call
    obtain ⟨⟨done, s2⟩, mapped, call⟩ := call
    have isS2 : s2 = s' := by cases done <;> cases call <;> rfl
    subst isS2
    exact ⟨i, true, n, fun sp => by rw [mapPages_vaddr sp mapped, setVaddr_vaddr]⟩

/-- The virtual page `get_a_page` marks. -/
theorem getAPage_vaddr (call : getAPage s cur pf vaddr = .ok (got, s')) (sp : Option Nat) :
    s'.vaddr sp = if sp = space pf cur then bitmapSet (s.vaddr (space pf cur)) (bitIdx (space pf cur) vaddr) true
      else s.vaddr sp := by
  obtain ⟨-, s1, rfl, ⟨taken, -⟩ | ⟨frame, s2, taken, add, -⟩⟩ := getAPage_cases call
  · rw [palloc_vaddr taken, setVaddr_vaddr]
  · rw [pageTableAdd_vaddr add, palloc_vaddr taken, setVaddr_vaddr]

theorem PageCall.marks {p : Nat} (call : PageCall p pf s s') : Marks s s' (space pf (some p)) := by
  cases call with
  | malloc call => exact mallocPage_marks call
  | get call => exact ⟨_, true, 1, getAPage_vaddr call⟩
  | free call => exact ⟨_, _, _, mfreePage_vaddr call⟩

/-- The copy of the pages marks no virtual page. -/
theorem copyBodyStack3_vaddr {parent child : Nat} (call : copyBodyStack3 s parent child = .ok s') (sp : Option Nat) :
    s'.vaddr sp = s.vaddr sp := by
  have bit : ∀ (t : Memory) (idx : Nat) (t' : Memory), (if bitmapScanTest (s.userVaddr parent) idx then
      getAPageWithoutOpvaddrbitmap t (some child) .user (idx * pgSize + userVaddrStart) else return t) = .ok t' →
      t.vaddr sp = s.vaddr sp → t'.vaddr sp = s.vaddr sp := by
    intro t idx t' turn same
    split at turn
    · simp only [getAPageWithoutOpvaddrbitmap] at turn
      split at turn
      · cases turn
      · rename_i taken
        rw [pageTableAdd_vaddr turn, palloc_vaddr taken, same]
    · cases turn
      exact same
  refine foldlM_invariant (I := fun t => t.vaddr sp = s.vaddr sp) ?_ _ call rfl
  intro t idxByte t' turn same
  simp only [copyByte] at turn
  split at turn
  · cases turn
    exact same
  · exact foldlM_invariant (I := fun t => t.vaddr sp = s.vaddr sp) (fun t idxBit t' => bit t (idxByte * 8 + idxBit) t') _ turn same

theorem freeAPhyPage_vaddr (f : Nat) (sp : Option Nat) : (freeAPhyPage s f).vaddr sp = s.vaddr sp := setPool_vaddr _ _ _ _

theorem releasePde_vaddr {child d : Nat} (call : releasePde child s d = .ok s') (sp : Option Nat) : s'.vaddr sp = s.vaddr sp := by
  simp only [releasePde] at call
  split at call
  · cases call
    rfl
  · rename_i table _
    simp only [bind_ok, pure_ok] at call
    obtain ⟨s1, entries, rfl⟩ := call
    rw [freeAPhyPage_vaddr]
    refine foldlM_invariant (I := fun t => t.vaddr sp = s.vaddr sp) ?_ _ entries rfl
    intro t i t' turn same
    simp only [releasePte] at turn
    split at turn
    · cases turn
      rw [freeAPhyPage_vaddr, same]
    · cases turn
      exact same

theorem release_vaddr {child : Nat} {l : List Nat} (call : l.foldlM (releasePde child) s = .ok s') (sp : Option Nat) :
    s'.vaddr sp = s.vaddr sp :=
  foldlM_invariant (I := fun t => t.vaddr sp = s.vaddr sp) (fun _ _ _ turn same => (releasePde_vaddr turn sp).trans same) _
    call rfl

/-- The four runs of kernel pages of a fork: where they are and that the last page of the
bitmap is none of the others. -/
theorem takePages_runs {parent bufPage : Nat} {pages : TaskPages}
    (call : takePages s parent = .ok (some (pages, bufPage), s')) :
    ∃ a b c d, pages = ⟨pageAddr none a, pageAddr none c, pageAddr none d⟩ ∧ bufPage = pageAddr none b ∧
      (∀ k ∈ [a, b, c, d], k < 8 * s.kernelVaddr.btmpBytesLen) ∧
      a ≠ c + 22 ∧ b ≠ c + 22 ∧ d ≠ c + 22 ∧ ¬ s.kernelVaddr.Set (c + 22) ∧ s'.kernelVaddr.Set (c + 22) ∧
      ∀ p, s'.userVaddr p = s.userVaddr p := by
  simp only [takePages, bind_ok, Prod.exists] at call
  obtain ⟨got1, s1, first, call⟩ := call
  cases got1 with
  | none => cases call
  | some pcb =>
  simp only [bind_ok, Prod.exists] at call
  obtain ⟨got2, s2, second, call⟩ := call
  cases got2 with
  | none => cases call
  | some buf =>
  simp only [bind_ok, Prod.exists] at call
  obtain ⟨got3, s3, third, call⟩ := call
  cases got3 with
  | none => cases call
  | some btmp =>
  simp only [bind_ok, Prod.exists] at call
  obtain ⟨got4, s4, fourth, call⟩ := call
  cases got4 with
  | none => cases call
  | some pgdir =>
  cases call
  obtain ⟨a, rfl, clearA, bitsA⟩ := mallocPage_vaddr first
  obtain ⟨b, rfl, clearB, bitsB⟩ := mallocPage_vaddr second
  obtain ⟨c, rfl, clearC, bitsC⟩ := mallocPage_vaddr third
  obtain ⟨d, rfl, clearD, bitsD⟩ := mallocPage_vaddr fourth
  have kernel : ∀ {t t' : Memory} {i n : Nat}, (∀ sp, t'.vaddr sp =
      if sp = space .kernel (some parent) then bitmapSetRun (t.vaddr (space .kernel (some parent))) i true n else t.vaddr sp) →
      t'.kernelVaddr = bitmapSetRun t.kernelVaddr i true n := fun h => h none
  have k1 := kernel bitsA
  have k2 := kernel bitsB
  have k3 := kernel bitsC
  have k4 := kernel bitsD
  have inA : a + 0 < 8 * s.kernelVaddr.btmpBytesLen ∧ ¬ s.kernelVaddr.Set (a + 0) := clearA 0 (by decide)
  have inB : b + 0 < 8 * s1.kernelVaddr.btmpBytesLen ∧ ¬ s1.kernelVaddr.Set (b + 0) := clearB 0 (by decide)
  have inC : c + 0 < 8 * s2.kernelVaddr.btmpBytesLen ∧ ¬ s2.kernelVaddr.Set (c + 0) := clearC 0 (by decide)
  have inD : d + 0 < 8 * s3.kernelVaddr.btmpBytesLen ∧ ¬ s3.kernelVaddr.Set (d + 0) := clearD 0 (by decide)
  have last : ¬ s2.kernelVaddr.Set (c + 22) := (clearC 22 (by decide)).2
  have count : bitmapPgCnt = 23 := by decide
  rw [count] at k3
  rw [k1] at k2 inB
  rw [k2] at k3 inC last
  rw [k3] at k4 inD
  simp only [bitmapSetRun_len, set_bitmapSetRun, Nat.add_zero] at inA inB inC inD last
  refine ⟨a, b, c, d, rfl, rfl, ?_, ?_, ?_, ?_, ?_, ?_, ?_⟩
  · simp only [List.mem_cons, List.not_mem_nil, or_false, forall_eq_or_imp, forall_eq]
    exact ⟨inA.1, inB.1, inC.1, inD.1⟩
  · rintro rfl
    simp at last
  · rintro rfl
    simp at last
  · rintro rfl
    simp at inD
  · intro set
    apply last
    split
    · trivial
    · split
      · trivial
      · exact set
  · rw [k4]
    simp only [set_bitmapSetRun]
    split
    · trivial
    · rw [if_pos (by omega)]
      trivial
  · intro p
    have user : ∀ {t t' : Memory} {i n : Nat}, (∀ sp, t'.vaddr sp =
        if sp = space .kernel (some parent) then bitmapSetRun (t.vaddr (space .kernel (some parent))) i true n else t.vaddr sp) →
        t'.userVaddr p = t.userVaddr p := fun h => h (some p)
    rw [user bitsD, user bitsC, user bitsB, user bitsA]

/-- The bit of a kernel page after `mfree_page` of other kernel pages. -/
theorem mfreePage_kernel {p i k : Nat} (call : Paging.mfreePage s (some p) .kernel (pageAddr none i) n = .ok s')
    (low : i < 2 ^ 16) (out : k < i ∨ i + n ≤ k) : s'.kernelVaddr.Set k ↔ s.kernelVaddr.Set k := by
  have idx : bitIdx none (pageAddr none i) = i := by
    simp only [bitIdx, pageAddr, vaddrStart, kHeapStart, pgSize]
    omega
  have bits : s'.kernelVaddr = bitmapSetRun s.kernelVaddr (bitIdx none (pageAddr none i)) false n := mfreePage_vaddr call none
  rw [bits, idx, set_bitmapSetRun, if_neg (by omega)]

end Pages

/-- The parent and the child leave kernel pages alone but for the recorded calls. -/
theorem Work.kept {parent child : Nat} {w w' : World} {own : List (Memory × Memory)} (work : Work parent child w own w') :
    (∀ sp, (w'.mem.vaddr sp).btmpBytesLen = (w.mem.vaddr sp).btmpBytesLen) ∧
      ∀ k, (∀ m ∈ own, (m.1.kernelVaddr.Set k ↔ m.2.kernelVaddr.Set k)) →
        (w'.mem.kernelVaddr.Set k ↔ w.mem.kernelVaddr.Set k) := by
  induction work with
  | done => exact ⟨fun _ => rfl, fun _ _ => Iff.rfl⟩
  | child call rest ih =>
    refine ⟨fun sp => (ih.1 sp).trans (call.marks.len sp), fun k quiet => (ih.2 k quiet).trans ?_⟩
    rename_i mem
    have same : mem.vaddr none = _ := call.marks.other (by simp [space])
    simp only [Memory.vaddr] at same
    simp only [same]
  | parent call rest ih =>
    refine ⟨fun sp => (ih.1 sp).trans (call.marks.len sp), fun k quiet => ?_⟩
    rw [List.forall_mem_cons] at quiet
    exact (ih.2 k quiet.2).trans quiet.1.symm
  | schedule switch rest ih => exact ih
  | wait current early waits rest ih => exact ih

/-- Where the pages of the child are after the fork. -/
theorem Forks.runs {w w' : World} {parent : Reap.TaskStruct} {child : Nat} {pages : TaskPages}
    (fork : Forks w w' parent child pages) (layout : Paging.Layout w.mem) :
    ∃ a c d, pages = ⟨pageAddr none a, pageAddr none c, pageAddr none d⟩ ∧ (a < 2 ^ 16 ∧ c < 2 ^ 16 ∧ d < 2 ^ 16) ∧
      a ≠ c + 22 ∧ d ≠ c + 22 ∧ ¬ w.mem.kernelVaddr.Set (c + 22) ∧ w'.mem.kernelVaddr.Set (c + 22) ∧
      (w'.mem.userVaddr child).btmpBytesLen = userBitmapLen := by
  have call := fork.mem
  simp only [forkPages, bind_ok, Prod.exists] at call
  obtain ⟨got, s, taken, call⟩ := call
  cases got with
  | none => cases call
  | some r =>
  obtain ⟨pages', bufPage⟩ := r
  simp only [bind_ok, pure_ok] at call
  obtain ⟨s1, copied, s2, freed, same⟩ := call
  cases same
  obtain ⟨a, b, c, d, rfl, rfl, bound, neA, neB, neD, clear, set, users⟩ := takePages_runs taken
  have heap := layout.heap
  simp only [List.mem_cons, List.not_mem_nil, or_false, forall_eq_or_imp, forall_eq] at bound
  have copy := copyBodyStack3_vaddr copied
  refine ⟨a, c, d, rfl, ⟨by omega, by omega, by omega⟩, neA, neD, clear, ?_, ?_⟩
  · have kernel : s1.kernelVaddr = s.kernelVaddr := copy none
    rw [mfreePage_kernel freed (by omega) (by omega), kernel]
    exact set
  · have user : w'.mem.userVaddr child = s1.userVaddr child := (mfreePage_vaddr freed (some child)).trans (if_neg (by simp [space]))
    have user1 : s1.userVaddr child = (newSpace s parent.pid child).userVaddr child := copy (some child)
    rw [user, user1]
    simp only [newSpace, if_true, users]
    exact layout.user parent.pid

/-- The bit of the last page of the bitmap of the child, which was clear before the fork, is
still set when the child has been reaped. -/
theorem Life.leaks (c : Life) : ∃ k, ¬ c.before.mem.kernelVaddr.Set k ∧
    (¬ c.Own (fun s => s.kernelVaddr.Set k) → c.after.mem.kernelVaddr.Set k) := by
  obtain ⟨a, i, d, pages, ⟨lowA, lowI, lowD⟩, neA, neD, clear, set, len⟩ := c.fork.runs c.layout
  refine ⟨i + 22, clear, fun quiet => ?_⟩
  have own : ∀ m ∈ c.own ++ c.own', (m.1.kernelVaddr.Set (i + 22) ↔ m.2.kernelVaddr.Set (i + 22)) := by
    intro m mem
    by_contra changed
    exact quiet ⟨m, mem, changed⟩
  rw [List.forall_mem_append] at own
  obtain ⟨lens, work⟩ := c.work.kept
  have worked := (work _ own.1).2 set
  have exited : c.exited.mem.kernelVaddr.Set (i + 22) := by
    have call := c.exit.mem
    rw [releaseProgResource, bind_ok] at call
    obtain ⟨s, released, call⟩ := call
    have user : s.userVaddr c.child = c.worked.mem.userVaddr c.child := release_vaddr released (some c.child)
    have kernel : s.kernelVaddr = c.worked.mem.kernelVaddr := release_vaddr released none
    have len' : (c.worked.mem.userVaddr c.child).btmpBytesLen = userBitmapLen := (lens (some c.child)).trans len
    have few : userBitmapLen / pgSize = 22 := by decide
    rw [pages, user, len', few] at call
    rw [mfreePage_kernel call lowI (by omega), kernel]
    exact worked
  have waited := (c.work'.kept.2 _ own.2).2 exited
  have call := c.reap.mem
  simp only [threadExit, bind_ok, pure_ok] at call
  obtain ⟨s1, dir, s2, pcb, e, -, same⟩ := call
  obtain rfl : s2 = c.after.mem := (Prod.mk.inj same).2
  rw [pages] at dir pcb
  rw [mfreePage_kernel pcb lowA (by omega), mfreePage_kernel dir lowD (by omega)]
  exact waited

/-- **No life of a child leaves everything as it was.** In each of them `thread_exit` reads
the PCB after it has unmapped it, and the last page of the bitmap stays taken. -/
theorem lifeCycle_never_restored (c : Life) : ¬ c.Restored ∧ c.mapped = false ∧
    ∃ k, ¬ c.before.mem.kernelVaddr.Set k ∧
      (¬ c.Own (fun s => s.kernelVaddr.Set k) → c.after.mem.kernelVaddr.Set k) := by
  have unmapped := threadExit_unmapped c.reap.mem
  refine ⟨fun restored => ?_, unmapped, c.leaks⟩
  rw [restored.reads] at unmapped
  cases unmapped

/-! A process with one page, its stack, forks a child that exits. -/

/-- Turns that do nothing can be left out. -/
theorem foldlM_idle {α : Type} {f : Memory → α → Exec Memory} : ∀ (l : List α) (s : Memory),
    (∀ x ∈ l, ∀ s, f s x = .ok s) → l.foldlM f s = .ok s := by
  intro l
  induction l with
  | nil => exact fun _ _ => rfl
  | cons x l ih =>
    intro s idle
    rw [List.forall_mem_cons] at idle
    rw [List.foldlM_cons, idle.1]
    exact ih s idle.2

/-- The copy when one byte of the bitmap is not 0. -/
theorem copyBodyStack3_one {s s' : Memory} {parent child k : Nat} (inside : k < (s.userVaddr parent).btmpBytesLen)
    (only : ∀ b, b ≠ k → (s.userVaddr parent).bits b = 0#8) (copy : copyByte (s.userVaddr parent) child s k = .ok s') :
    copyBodyStack3 s parent child = .ok s' := by
  obtain ⟨l, l', split⟩ := List.append_of_mem (List.mem_range.2 inside)
  have nodup := List.nodup_range (n := (s.userVaddr parent).btmpBytesLen)
  rw [split, List.nodup_append, List.nodup_cons] at nodup
  have idle : ∀ b, b ≠ k → ∀ t, copyByte (s.userVaddr parent) child t b = .ok t := by
    intro b ne t
    simp only [copyByte, only b ne, if_true]
    rfl
  have before : ∀ b ∈ l, ∀ t, copyByte (s.userVaddr parent) child t b = .ok t :=
    fun b mem => idle b fun e => nodup.2.2 b mem k (by simp) e
  have after : ∀ b ∈ l', ∀ t, copyByte (s.userVaddr parent) child t b = .ok t :=
    fun b mem => idle b fun e => nodup.2.1.1 (e ▸ mem)
  rw [copyBodyStack3, split, List.foldlM_append, foldlM_idle l s before, ok_bind, List.foldlM_cons, copy]
  exact foldlM_idle l' s' after

def initTask : Reap.TaskStruct := ⟨1, -1, .running, 0, true, false⟩

/-- `init` runs, and the main and the idle thread are ready. -/
def initTasks : Reap.Tasks :=
  { Reap.bootTasks with allList := [initTask, ⟨2, -1, .ready, 0, false, false⟩, ⟨3, -1, .ready, 0, false, false⟩] }

def noFiles : Sys where
  fs := ⟨fun _ => 0#8, ⟨0, fun _ => 0#8⟩, ⟨0, fun _ => 0#8⟩, fun _ => ⟨0, 0, 0, false, fun _ => 0⟩, fun _ => none, 1, [], 0,
    fun _ => File.empty, []⟩
  procs := fun pid => ⟨decide (pid = 1), -1, fun i => if i < 3 then i else -1, 0⟩
  live := [1, 2]
  dirs := []
  nextDir := 1
  pipes := fun _ => ioqueueInit
  console := []

/-- The bitmap of a process that has its stack. -/
def stackBits : Bitmap := bitmapSet ⟨userBitmapLen, fun _ => 0#8⟩ 753591 true

/-- Whether the running task has a child 4 that has exited. -/
def waitsForFour (t : Reap.Tasks) : Bool :=
  match t.current with
  | none => false
  | some reaper => reaper.pid == 1 &&
    match t.allList.find? (fun t => t.parentPid = (reaper.pid : Int) ∧ t.status = .hanging) with
    | none => false
    | some c => c.pid == 4

/-- Whether task 4 runs, and exits, and is then there for its parent. -/
def exitsAsFour (t : Reap.Tasks) : Bool :=
  match t.current with
  | none => false
  | some child => child.pid == 4 && returns (Reap.sysExit child 0 t) fun t' => returns (Reap.act t' (.schedule 1)) waitsForFour

/-- Whether the pages `sys_fork` took are used and given back, but for those of the PCB. -/
def livesOn (s : Memory) : Option (TaskPages × Nat) → Bool
  | none => false
  | some (pages, bufPage) =>
    returns (copyByte stackBits 4 (newSpace s 1 4) 94198) fun s2 =>
    returns (Paging.mfreePage s2 (some 1) .kernel bufPage 1) fun s3 =>
    returns (releaseProgResource s3 4 pages) fun s4 =>
    returns (threadExit s4 1 pages) fun r => !r.1

theorem one_life : ∃ c : Life, c.mapped = false := by
  have tasks : returns (Reap.sysFork initTask 4 initTasks) (fun t1 => returns (Reap.act t1 (.schedule 4)) exitsAsFour) = true := by
    decide +kernel
  have number : returns (Reap.allocatePid initTasks) (fun r => r.1 == 4) = true := by decide +kernel
  have sys : returns (Sparrow.sysFork 1 4 noFiles) (fun r => r.1 == 4 &&
      returns (Sparrow.sysExit 4 r.2) fun _ => true) = true := by decide +kernel
  have pages : returns (getAPage (memPoolInit 0x2000000) (some 1) .user 0xbffff000) (fun r0 => !r0.2.starved &&
      returns (takePages r0.2 1) fun r1 => livesOn r1.2 r1.1) = true := by decide +kernel
  obtain ⟨⟨pid, tasks0⟩, number, isPid⟩ := returns_true.1 number
  rw [beq_iff_eq] at isPid
  simp only at isPid
  subst isPid
  obtain ⟨tasks1, fork, tasks⟩ := returns_true.1 tasks
  obtain ⟨tasks2, toChild, tasks⟩ := returns_true.1 tasks
  unfold exitsAsFour at tasks
  split at tasks
  · cases tasks
  rename_i child isChild
  rw [Bool.and_eq_true, beq_iff_eq] at tasks
  obtain ⟨childPid, tasks⟩ := tasks
  obtain ⟨tasks3, exit, tasks⟩ := returns_true.1 tasks
  obtain ⟨tasks4, toParent, tasks⟩ := returns_true.1 tasks
  unfold waitsForFour at tasks
  split at tasks
  · cases tasks
  rename_i reaper isReaper
  rw [Bool.and_eq_true, beq_iff_eq] at tasks
  obtain ⟨reaperPid, tasks⟩ := tasks
  split at tasks
  · cases tasks
  rename_i c finds
  rw [beq_iff_eq] at tasks
  obtain ⟨⟨r, sys1⟩, forkSys, sys⟩ := returns_true.1 sys
  rw [Bool.and_eq_true, beq_iff_eq] at sys
  obtain ⟨rfl, sys⟩ := sys
  obtain ⟨sys2, exitSys, -⟩ := returns_true.1 sys
  obtain ⟨⟨got, s0⟩, stack, pages⟩ := returns_true.1 pages
  rw [Bool.and_eq_true, Bool.not_eq_true'] at pages
  obtain ⟨fed, pages⟩ := pages
  obtain ⟨⟨got1, s1⟩, taken, pages⟩ := returns_true.1 pages
  unfold livesOn at pages
  split at pages
  · cases pages
  rename_i own bufPage isPages
  simp only at isPages pages
  subst isPages
  obtain ⟨s2, copied, pages⟩ := returns_true.1 pages
  obtain ⟨s3, freed, pages⟩ := returns_true.1 pages
  obtain ⟨s4, released, pages⟩ := returns_true.1 pages
  obtain ⟨⟨mapped, s5⟩, reaped, pages⟩ := returns_true.1 pages
  have bits : (newSpace s1 1 4).userVaddr 1 = stackBits := by
    obtain ⟨_, _, _, _, _, _, _, _, _, _, _, _, users⟩ := takePages_runs taken
    have user : s0.userVaddr 1 = stackBits := getAPage_vaddr stack (some 1)
    exact (users 1).trans user
  have copy : copyBodyStack3 (newSpace s1 1 4) 1 4 = .ok s2 := by
    refine copyBodyStack3_one (k := 94198) (by rw [bits]; decide) (fun b ne => ?_) (by rw [bits]; exact copied)
    rw [bits]
    exact if_neg ne
  have forkMem : forkPages s0 1 4 = .ok (some own, s3) := by
    simp only [forkPages, taken, ok_bind, copy, freed]
    rfl
  have layout : Paging.Layout s0 := by
    have inside : 753591 < 8 * ((memPoolInit 0x2000000).vaddr (space .user (some 1))).btmpBytesLen := by decide
    obtain ⟨g, -, took⟩ := getAPage_taken (memPoolInit_inv _) inside (fun f held => memPoolInit_holds _ _ _ held) stack fed
    exact took.same.layout (memPoolInit_layout _)
  refine ⟨{
    before := ⟨s0, initTasks, noFiles⟩, forked := ⟨s3, tasks1, sys1⟩, worked := ⟨s3, tasks2, sys1⟩
    exited := ⟨s4, tasks3, sys2⟩, waited := ⟨s4, tasks4, sys2⟩, after := ⟨s5, Reap.sysWait reaper tasks4, sys2⟩
    parent := initTask, reaper := reaper, child := 4, pages := own, own := [], own' := [], mapped := mapped
    layout := layout
    fork := ⟨rfl, ⟨_, number⟩, forkMem, fork, forkSys⟩
    work := .schedule toChild .done
    exit := ⟨released, ⟨child, 0, isChild, childPid, exit⟩, exitSys⟩
    work' := .schedule toParent .done
    reap := ⟨isReaper, ⟨c, finds, tasks⟩, by rw [reaperPid]; exact reaped, rfl, rfl⟩ }, ?_⟩
  simpa using pages

/-- Not every life restores what it found. -/
theorem lifeCycle_not_restored : ¬ ∀ c : Life, c.Restored := by
  intro claim
  obtain ⟨c, unmapped⟩ := one_life
  have := (claim c).reads
  rw [unmapped] at this
  cases this

end Sparrow.LifeCycle
