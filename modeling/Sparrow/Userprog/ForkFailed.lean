import Sparrow.Userprog.LifeCycle

/-!
# A fork that fails

`sys_fork` on pages, tasks and descriptors together, and what it leaves behind when an
allocation fails. No error path gives anything back, and the frames for the copy are taken
without a look at the result, so a failed fork is as if it had not been only when no kernel page
is left for the first allocation.
-/

namespace Sparrow.LifeCycle
set_option autoImplicit false

open Paging

/-- One turn of the loop of `copy_body_stack3`, for a page of the parent. -/
def copyPage (child : Nat) (s : Memory) (i : Nat) : Exec Memory :=
  getAPageWithoutOpvaddrbitmap s (some child) .user (i * pgSize + userVaddrStart)

/-- The pages of an address space, in the order in which they are copied. -/
def setPages (b : Bitmap) : List Nat := (List.range (8 * b.btmpBytesLen)).filter fun i => bitmapScanTest b i

/-- The loop of `copy_body_stack3` over the bits of a byte, with the turn for a set bit left open. -/
def forBits {α : Type} (vaddrBtmp : Bitmap) (turn : α → Nat → Exec α) (s : α) (idxByte : Nat) : Exec α :=
  if vaddrBtmp.bits idxByte = 0#8 then return s
  else (List.range 8).foldlM (fun s idxBit =>
    if bitmapScanTest vaddrBtmp (idxByte * 8 + idxBit) then turn s (idxByte * 8 + idxBit) else return s) s

/-- The loops of `copy_body_stack3`. -/
def forSetBits {α : Type} (vaddrBtmp : Bitmap) (turn : α → Nat → Exec α) (s : α) : Exec α :=
  (List.range vaddrBtmp.btmpBytesLen).foldlM (forBits vaddrBtmp turn) s

/-- `copy_process`: the number of the child, `none` for -1. -/
def copyProcess (parent : Reap.TaskStruct) (w : World) : Exec (Option Nat × World) := do
  match ← Paging.mallocPage w.mem (some parent.pid) .kernel 1 with
  | (none, mem) => return (none, { w with mem := mem })
  | (some bufPage, mem) =>
    let (child, tasks) ← Reap.allocatePid w.tasks
    match ← Paging.mallocPage mem (some parent.pid) .kernel bitmapPgCnt with
    | (none, mem) => return (none, { w with mem := mem, tasks := tasks })
    | (some _, mem) =>
      match ← Paging.mallocPage mem (some parent.pid) .kernel 1 with
      | (none, mem) => return (none, { w with mem := mem, tasks := tasks })
      | (some _, mem) =>
        let mem ← copyBodyStack3 (newSpace mem parent.pid child) parent.pid child
        let s ← updateInodeOpenCnts (w.sys.heapOf parent.pid) (w.sys.procs parent.pid).fdTable w.sys.fs
        let mem ← Paging.mfreePage mem (some parent.pid) .kernel bufPage 1
        return (some child, ⟨mem, tasks, { w.sys with fs := s }⟩)

/-- `sys_fork` by `parent`. -/
def sysFork (parent : Reap.TaskStruct) (w : World) : Exec (Option Nat × World) := do
  match ← Paging.mallocPage w.mem (some parent.pid) .kernel 1 with
  | (none, mem) => return (none, { w with mem := mem })
  | (some _, mem) =>
    assertThat (parent.user = true)
    match ← copyProcess parent { w with mem := mem } with
    | (none, w) => return (none, w)
    | (some child, w) =>
      return (some child, { w with
        tasks := { w.tasks with allList := w.tasks.allList ++
          [{ parent with pid := child, parentPid := parent.pid, status := .ready }] }
        sys := { w.sys.setProc child { w.sys.procs parent.pid with parentPid := parent.pid } with live := child :: w.sys.live } })

/-- The allocations of `sys_fork`. -/
inductive Point where
  | pcb
  | buffer
  | bitmap
  | pgdir
  | body
  deriving DecidableEq, Repr

/-- The copy of the pages comes to one for which there is no frame. -/
def Starves (s : Memory) (parent child : Nat) : Prop :=
  ∃ pre i post t, setPages (s.userVaddr parent) = pre ++ i :: post ∧ pre.foldlM (copyPage child) s = .ok t ∧
    (palloc t .user).1 = none

/-- `sys_fork` comes to this allocation, and it fails. -/
inductive FailsAt (parent : Reap.TaskStruct) (w : World) : Point → Prop where
  | pcb {mem : Memory} (fails : Paging.mallocPage w.mem (some parent.pid) .kernel 1 = .ok (none, mem)) : FailsAt parent w .pcb
  | buffer {mem mem' : Memory} {pcb : Nat} (first : Paging.mallocPage w.mem (some parent.pid) .kernel 1 = .ok (some pcb, mem))
    (user : parent.user = true) (fails : Paging.mallocPage mem (some parent.pid) .kernel 1 = .ok (none, mem')) :
    FailsAt parent w .buffer
  | bitmap {mem mem' mem'' : Memory} {pcb bufPage child : Nat} {tasks : Reap.Tasks}
    (first : Paging.mallocPage w.mem (some parent.pid) .kernel 1 = .ok (some pcb, mem)) (user : parent.user = true)
    (second : Paging.mallocPage mem (some parent.pid) .kernel 1 = .ok (some bufPage, mem'))
    (number : Reap.allocatePid w.tasks = .ok (child, tasks))
    (fails : Paging.mallocPage mem' (some parent.pid) .kernel bitmapPgCnt = .ok (none, mem'')) : FailsAt parent w .bitmap
  | pgdir {mem mem' mem'' mem3 : Memory} {pcb bufPage child vaddrBtmp : Nat} {tasks : Reap.Tasks}
    (first : Paging.mallocPage w.mem (some parent.pid) .kernel 1 = .ok (some pcb, mem)) (user : parent.user = true)
    (second : Paging.mallocPage mem (some parent.pid) .kernel 1 = .ok (some bufPage, mem'))
    (number : Reap.allocatePid w.tasks = .ok (child, tasks))
    (third : Paging.mallocPage mem' (some parent.pid) .kernel bitmapPgCnt = .ok (some vaddrBtmp, mem''))
    (fails : Paging.mallocPage mem'' (some parent.pid) .kernel 1 = .ok (none, mem3)) : FailsAt parent w .pgdir
  | body {mem mem' mem'' mem3 : Memory} {pcb bufPage child vaddrBtmp pgdir : Nat} {tasks : Reap.Tasks}
    (first : Paging.mallocPage w.mem (some parent.pid) .kernel 1 = .ok (some pcb, mem)) (user : parent.user = true)
    (second : Paging.mallocPage mem (some parent.pid) .kernel 1 = .ok (some bufPage, mem'))
    (number : Reap.allocatePid w.tasks = .ok (child, tasks))
    (third : Paging.mallocPage mem' (some parent.pid) .kernel bitmapPgCnt = .ok (some vaddrBtmp, mem''))
    (fourth : Paging.mallocPage mem'' (some parent.pid) .kernel 1 = .ok (some pgdir, mem3))
    (fails : Starves (newSpace mem3 parent.pid child) parent.pid child) : FailsAt parent w .body

/-- The bitmaps, the task lists and the counts of inodes and pipes are as before. -/
structure Unchanged (w w' : World) : Prop where
  pools : ∀ pf k, w'.mem.Marked pf k ↔ w.mem.Marked pf k
  kernelVaddr : ∀ k, w'.mem.kernelVaddr.Set k ↔ w.mem.kernelVaddr.Set k
  pids : ∀ k, w'.tasks.pidBitmap.Set k ↔ w.tasks.pidBitmap.Set k
  lists : w'.tasks.allList = w.tasks.allList
  inodes : ∀ addr, (w'.sys.fs.inodes addr).iOpenCnts = (w.sys.fs.inodes addr).iOpenCnts
  pipes : ∀ i, isPipe w.sys.fs i = true → (w'.sys.fs.fileTable i).fdPos = (w.sys.fs.fileTable i).fdPos

section Loop

variable {α : Type} {b : Bitmap} {turn : α → Nat → Exec α}

/-- The bits of one byte. -/
theorem forBits_eq (s : α) (idxByte : Nat) :
    forBits b turn s idxByte = ((List.range' (8 * idxByte) 8).filter fun i => bitmapScanTest b i).foldlM turn s := by
  have bits : List.range' (8 * idxByte) 8 = (List.range 8).map fun idxBit => idxByte * 8 + idxBit := by
    rw [List.range_eq_range', List.map_add_range']
    simp [Nat.mul_comm]
  rw [forBits, bits]
  split
  · rename_i zero
    rw [List.filter_eq_nil_iff.2]
    · rfl
    · intro i mem
      obtain ⟨j, lt, rfl⟩ := List.mem_map.1 mem
      have lt := List.mem_range.1 lt
      rw [bitmapScanTest_eq_getLsbD, show (idxByte * 8 + j) / 8 = idxByte by omega, zero]
      simp
  · rw [List.foldlM_filter, List.foldlM_map]

/-- **The double loop of `copy_body_stack3`** is one loop over the pages of the address space. -/
theorem forSetBits_eq (s : α) : forSetBits b turn s = (setPages b).foldlM turn s := by
  rw [forSetBits, setPages]
  generalize b.btmpBytesLen = len
  induction len generalizing s with
  | zero => rfl
  | succ len ih =>
    have split : List.range (8 * (len + 1)) = List.range (8 * len) ++ List.range' (8 * len) 8 := by
      rw [List.range_eq_range', List.range_eq_range', Nat.mul_succ, ← List.range'_append_1, Nat.zero_add]
    rw [List.range_succ, List.foldlM_append, split, List.filter_append, List.foldlM_append, ih]
    refine bind_congr fun t => ?_
    rw [List.foldlM_cons, forBits_eq]
    exact bind_pure _

theorem copyBodyStack3_eq (s : Memory) (parent child : Nat) :
    copyBodyStack3 s parent child = (setPages (s.userVaddr parent)).foldlM (copyPage child) s := by
  have loops : copyBodyStack3 s parent child = forSetBits (s.userVaddr parent) (copyPage child) s := rfl
  rw [loops, forSetBits_eq]

end Loop

/-- A fork that returns the number of a child is a fork as in the life of that child. -/
theorem sysFork_forks {parent : Reap.TaskStruct} {w w' : World} {child : Nat} (current : w.tasks.current = some parent)
    (process : (w.sys.procs parent.pid).user = true) (heap : w.sys.fs.mallocs = [])
    (call : sysFork parent w = .ok (some child, w')) : ∃ pages, Forks w w' parent child pages := by
  simp only [sysFork, bind_ok, Prod.exists] at call
  obtain ⟨got, mem, first, call⟩ := call
  cases got with
  | none => cases call
  | some pcb =>
  simp only [bind_ok, assertThat_ok, exists_const, Prod.exists] at call
  obtain ⟨user, got, w1, copied, call⟩ := call
  cases got with
  | none => cases call
  | some pid =>
  cases call
  simp only [copyProcess, bind_ok, Prod.exists] at copied
  obtain ⟨got, mem2, second, copied⟩ := copied
  cases got with
  | none => cases copied
  | some bufPage =>
  simp only [bind_ok, Prod.exists] at copied
  obtain ⟨pid, tasks, number, got, mem3, third, copied⟩ := copied
  cases got with
  | none => cases copied
  | some vaddrBtmp =>
  simp only [bind_ok, Prod.exists] at copied
  obtain ⟨got, mem4, fourth, copied⟩ := copied
  cases got with
  | none => cases copied
  | some pgdir =>
  simp only [bind_ok, pure_ok] at copied
  obtain ⟨mem5, body, s, counts, mem6, freed, e⟩ := copied
  cases e
  refine ⟨⟨pcb, vaddrBtmp, pgdir⟩, current, ⟨tasks, number⟩, ?_, ?_, ?_⟩
  · simp only [forkPages, takePages, first, second, third, fourth, ok_bind, body, freed, pure, Except.pure]
  · simp only [Reap.sysFork, assertThat_of user, ok_bind, number, if_neg (show ¬ 4 < 2 by decide), if_neg (show ¬ 4 < 4 by decide)]
    rfl
  · have same : w.sys.fs.malloc = w.sys.fs := by
      rw [Fs.malloc, heap]
      exact congrArg (fun l => { w.sys.fs with mallocs := l }) heap.symm
    have memory : w.sys.fs.mallocOk = true := by
      rw [Fs.mallocOk, heap]
      rfl
    have pages : ∀ k, getPages k w.sys.fs = (true, w.sys.fs) := by
      intro k
      induction k with
      | zero => rfl
      | succ k ih => rw [getPages, if_pos memory, same, ih]
    simp only [Sparrow.sysFork, pages, if_neg (show ¬ true = false by decide), assertThat_of process, ok_bind, counts]
    rfl

section Failed

variable {parent : Reap.TaskStruct} {w w' : World} {s s' : Memory} {cur got : Option Nat} {pf : PoolFlags} {n : Nat}

/-- `malloc_page` clears no bit of a virtual page, also when it fails. -/
theorem mallocPage_keeps (call : Paging.mallocPage s cur pf n = .ok (got, s')) {sp : Option Nat} {k : Nat}
    (set : (s.vaddr sp).Set k) : (s'.vaddr sp).Set k := by
  simp only [Paging.mallocPage, bind_ok, assertThat_ok, exists_const] at call
  obtain ⟨-, ⟨run, s1⟩, found, call⟩ := call
  rcases vaddrGet_cases found with ⟨rfl, rfl⟩ | ⟨i, -, rfl, -, rfl⟩
  · cases call
    exact set
  · rw [bind_ok] at call
    obtain ⟨⟨done, s2⟩, mapped, call⟩ := call
    obtain rfl : s2 = s' := by cases done <;> cases call <;> rfl
    rw [mapPages_vaddr sp mapped, setVaddr_vaddr]
    split
    · rename_i here
      rw [set_bitmapSetRun]
      split
      · rfl
      · rw [← here]
        exact set
    · exact set

/-- One kernel page: a virtual page is marked, or there was none. -/
theorem mallocPage_one (call : Paging.mallocPage s cur .kernel 1 = .ok (got, s')) :
    (got = none ∧ s' = s ∧ ∀ k, k < 8 * s.kernelVaddr.btmpBytesLen → s.kernelVaddr.Set k) ∨
      ∃ k, k < 8 * s.kernelVaddr.btmpBytesLen ∧ ¬ s.kernelVaddr.Set k ∧ s'.kernelVaddr.Set k := by
  simp only [Paging.mallocPage, bind_ok, assertThat_ok, exists_const] at call
  obtain ⟨-, ⟨run, s1⟩, found, call⟩ := call
  rcases vaddrGet_cases found with ⟨rfl, same⟩ | ⟨i, -, rfl, clear, rfl⟩
  · left
    subst s1
    cases call
    refine ⟨rfl, rfl, ?_⟩
    cases scan : bitmapScan s.kernelVaddr 1 with
    | none => exact bitmapScan_one_none scan
    | some i =>
      have some_ : vaddrGet s cur .kernel 1 =
          .ok (some (kHeapStart + i * pgSize), s.setVaddr none (bitmapSetRun s.kernelVaddr i true 1)) := by
        rw [vaddrGet, if_neg (by rintro ⟨⟨⟩, -⟩)]
        simp only [space, Memory.vaddr, scan]
        rfl
      rw [found] at some_
      cases some_
  · right
    rw [bind_ok] at call
    obtain ⟨⟨done, s2⟩, mapped, call⟩ := call
    obtain rfl : s2 = s' := by cases done <;> cases call <;> rfl
    obtain ⟨inside, free⟩ := clear 0 (by decide)
    refine ⟨i, inside, free, ?_⟩
    have bits : s2.kernelVaddr = bitmapSetRun s.kernelVaddr i true 1 := mapPages_vaddr none mapped
    rw [bits, set_bitmapSetRun, if_pos (by omega)]

/-- What `copy_process` returns on failure leaves every bit of a kernel page set. -/
theorem copyProcess_none (call : copyProcess parent w = .ok (none, w')) {k : Nat} (set : w.mem.kernelVaddr.Set k) :
    w'.mem.kernelVaddr.Set k := by
  have keeps : ∀ {t t' : Memory} {n : Nat} {got : Option Nat}, Paging.mallocPage t (some parent.pid) .kernel n = .ok (got, t') →
      t.kernelVaddr.Set k → t'.kernelVaddr.Set k := by
    intro t t' n got call set
    have kept : (t'.vaddr none).Set k := mallocPage_keeps call set
    exact kept
  simp only [copyProcess, bind_ok, Prod.exists] at call
  obtain ⟨got, mem, second, call⟩ := call
  have set1 := keeps second set
  cases got with
  | none =>
    cases call
    exact set1
  | some bufPage =>
  simp only [bind_ok, Prod.exists] at call
  obtain ⟨child, tasks, -, got, mem', third, call⟩ := call
  have set2 := keeps third set1
  cases got with
  | none =>
    cases call
    exact set2
  | some vaddrBtmp =>
  simp only [bind_ok, Prod.exists] at call
  obtain ⟨got, mem'', fourth, call⟩ := call
  cases got with
  | none =>
    cases call
    exact keeps fourth set2
  | some pgdir =>
    simp only [bind_ok, pure_ok] at call
    obtain ⟨_, -, _, -, _, -, e⟩ := call
    cases e

/-- A fork that returns -1 found no kernel page at all, or has left one marked. -/
theorem sysFork_none (call : sysFork parent w = .ok (none, w')) :
    (w' = w ∧ ∀ k, k < 8 * w.mem.kernelVaddr.btmpBytesLen → w.mem.kernelVaddr.Set k) ∨
      ∃ k, k < 8 * w.mem.kernelVaddr.btmpBytesLen ∧ ¬ w.mem.kernelVaddr.Set k ∧ w'.mem.kernelVaddr.Set k := by
  simp only [sysFork, bind_ok, Prod.exists] at call
  obtain ⟨got, mem, first, call⟩ := call
  obtain ⟨rfl, rfl, full⟩ | ⟨k, inside, free, set⟩ := mallocPage_one first
  · cases call
    exact .inl ⟨rfl, full⟩
  · refine .inr ⟨k, inside, free, ?_⟩
    cases got with
    | none =>
      cases call
      exact set
    | some pcb =>
      simp only [bind_ok, assertThat_ok, exists_const, Prod.exists] at call
      obtain ⟨-, child, w1, copied, call⟩ := call
      cases child with
      | none =>
        cases call
        exact copyProcess_none copied set
      | some child => cases call

/-- Without a frame for a page of the parent the copy faults. -/
theorem Starves.faults {pid child : Nat} (starves : Starves s pid child) : copyBodyStack3 s pid child = .error .undefined := by
  obtain ⟨pre, i, post, t, pages, ran, none⟩ := starves
  have stops : copyPage child t i = .error .undefined := by
    rw [copyPage, getAPageWithoutOpvaddrbitmap]
    split
    · rfl
    · rename_i taken
      rw [taken] at none
      cases none
  rw [copyBodyStack3_eq, pages, List.foldlM_append, ran, ok_bind, List.foldlM_cons, stops]
  rfl

/-- How a fork ends whose allocation fails. -/
theorem FailsAt.ends {point : Point} (fails : FailsAt parent w point) :
    if point = .body then sysFork parent w = .error .undefined else ∃ w', sysFork parent w = .ok (none, w') := by
  cases fails with
  | pcb fails =>
    simp only [sysFork, fails, ok_bind]
    exact ⟨_, rfl⟩
  | buffer first user fails =>
    simp only [sysFork, first, ok_bind, assertThat_of user, copyProcess, fails]
    exact ⟨_, rfl⟩
  | bitmap first user second number fails =>
    simp only [sysFork, first, ok_bind, assertThat_of user, copyProcess, second, number, fails]
    exact ⟨_, rfl⟩
  | pgdir first user second number third fails =>
    simp only [sysFork, first, ok_bind, assertThat_of user, copyProcess, second, number, third, fails]
    exact ⟨_, rfl⟩
  | body first user second number third fourth fails =>
    simp only [sysFork, first, ok_bind, assertThat_of user, copyProcess, second, number, third, fourth, fails.faults]
    rfl

/-- **A failed `sys_fork`** returns -1 and changes nothing exactly when there is no virtual kernel
page for the task structure. Where the copy finds no frame it faults. -/
theorem sysFork_failed {point : Point} (fails : FailsAt parent w point) :
    ((∃ w', sysFork parent w = .ok (none, w') ∧ Unchanged w w') ↔
      ∀ k, k < 8 * w.mem.kernelVaddr.btmpBytesLen → w.mem.kernelVaddr.Set k) ∧
    if point = .body then sysFork parent w = .error .undefined else ∃ w', sysFork parent w = .ok (none, w') := by
  refine ⟨⟨?_, fun full => ?_⟩, fails.ends⟩
  · rintro ⟨w', call, same⟩
    obtain ⟨-, full⟩ | ⟨k, -, free, set⟩ := sysFork_none call
    · exact full
    · exact absurd ((same.kernelVaddr k).1 set) free
  · have ends := fails.ends
    split at ends
    · rename_i isBody
      subst isBody
      cases fails with
      | body first =>
        obtain ⟨no, -⟩ | ⟨k, inside, free, -⟩ := mallocPage_one first
        · cases no
        · exact absurd (full k inside) free
    · obtain ⟨w', call⟩ := ends
      obtain ⟨rfl, -⟩ | ⟨k, inside, free, -⟩ := sysFork_none call
      · exact ⟨w', call, fun _ _ => Iff.rfl, fun _ => Iff.rfl, fun _ => Iff.rfl, rfl, fun _ => rfl, fun _ _ => rfl⟩
      · exact absurd (full k inside) free

/-- With all kernel pages taken the fork of `init` fails and changes nothing. -/
theorem sysFork_failed_full : ∃ w w', FailsAt initTask w .pcb ∧ sysFork initTask w = .ok (none, w') ∧ Unchanged w w' := by
  have ran : returns (Paging.mallocPage (memPoolInit 0x240000) none .kernel 32) (fun r =>
      decide (∀ k, k < 8 * r.2.kernelVaddr.btmpBytesLen → r.2.kernelVaddr.Set k) &&
      returns (Paging.mallocPage r.2 (some 1) .kernel 1) fun r1 => r1.1.isNone) = true := by decide
  obtain ⟨⟨_, s⟩, -, ran⟩ := returns_true.1 ran
  rw [Bool.and_eq_true, decide_eq_true_eq] at ran
  obtain ⟨full, ran⟩ := ran
  obtain ⟨⟨got, s1⟩, first, none⟩ := returns_true.1 ran
  rw [Option.isNone_iff_eq_none] at none
  obtain rfl : got = .none := none
  have fails : FailsAt initTask ⟨s, initTasks, noFiles⟩ .pcb := .pcb first
  obtain ⟨w', call, same⟩ := (sysFork_failed fails).1.2 full
  exact ⟨_, w', fails, call, same⟩

/-- `init` has its 25 kernel pages of 32. A fork takes a page for the task structure and one for
the buffer, finds no run of pages for the bitmap, and keeps the two. -/
theorem sysFork_leaks : ¬ ∀ (parent : Reap.TaskStruct) (w : World) (point : Point), FailsAt parent w point →
    ∃ w', sysFork parent w = .ok (none, w') ∧ Unchanged w w' := by
  intro claim
  have ran : returns (Paging.mallocPage (memPoolInit 0x240000) none .kernel 25) (fun r =>
      decide (¬ r.2.kernelVaddr.Set 31) && decide (8 * r.2.kernelVaddr.btmpBytesLen = 32) &&
      returns (Paging.mallocPage r.2 (some 1) .kernel 1) fun r1 => r1.1.isSome &&
      returns (Paging.mallocPage r1.2 (some 1) .kernel 1) fun r2 => r2.1.isSome &&
      returns (Paging.mallocPage r2.2 (some 1) .kernel bitmapPgCnt) fun r3 => r3.1.isNone) = true := by decide
  have number : returns (Reap.allocatePid initTasks) (fun _ => true) = true := by decide
  obtain ⟨⟨_, s⟩, -, ran⟩ := returns_true.1 ran
  simp only [Bool.and_eq_true, decide_eq_true_eq] at ran
  obtain ⟨⟨clear, len⟩, ran⟩ := ran
  obtain ⟨⟨got1, s1⟩, first, ran⟩ := returns_true.1 ran
  simp only [Bool.and_eq_true, Option.isSome_iff_exists] at ran
  obtain ⟨⟨pcb, rfl⟩, ran⟩ := ran
  obtain ⟨⟨got2, s2⟩, second, ran⟩ := returns_true.1 ran
  simp only [Bool.and_eq_true, Option.isSome_iff_exists] at ran
  obtain ⟨⟨bufPage, rfl⟩, ran⟩ := ran
  obtain ⟨⟨got3, s3⟩, third, ran⟩ := returns_true.1 ran
  rw [Option.isNone_iff_eq_none] at ran
  obtain rfl : got3 = .none := ran
  obtain ⟨⟨child, tasks⟩, number, -⟩ := returns_true.1 number
  obtain ⟨w', call, same⟩ := claim initTask ⟨s, initTasks, noFiles⟩ .bitmap (.bitmap first rfl second number third)
  obtain ⟨-, full⟩ | ⟨k, -, free, set⟩ := sysFork_none call
  · exact clear (full 31 (by rw [len]; decide))
  · exact free ((same.kernelVaddr k).1 set)

end Failed

end Sparrow.LifeCycle
