import Mathlib.Logic.Relation
import Mathlib.Data.List.Nodup
import Sparrow.Kernel.Bitmap
import Sparrow.Lib.Exec
import Sparrow.Thread.Sched

/-!
# Waiting for children

`sys_fork`, `sys_wait` and `sys_exit` (`userprog/fork.c`, `userprog/wait_exit.c`) as far
as they concern the list of all tasks, their parents and their states, with `pid`s from the
bitmap of `thread/thread.c`. System calls run with interrupts off, so a call is one step,
and `sys_wait` one step each time it goes through its loop; between two steps the scheduler
may run any task that is ready.

A task that waits is woken by the exit of a child, but not by a child it gets by adoption
that exited before. `MissesAdopted` is that case, and without it no task waits while it has
a child to reap.
-/

namespace Sparrow.Reap
set_option autoImplicit false

/-- The fields of `struct task_struct` read or written here. `user` is `pgdir != NULL`;
`inWait` says that the task is inside the loop of `sys_wait`. -/
structure TaskStruct where
  pid : Nat
  parentPid : Int
  status : TaskStatus
  exitStatus : Int
  user : Bool
  inWait : Bool
  deriving DecidableEq, Repr

/-- `thread_all_list` and the pool of `pid`s. -/
structure Tasks where
  allList : List TaskStruct
  pidBitmap : Bitmap

/-- Change the task `pid`. -/
def Tasks.update (s : Tasks) (pid : Nat) (f : TaskStruct → TaskStruct) : Tasks :=
  { s with allList := s.allList.map fun t => if t.pid = pid then f t else t }

/-- `allocate_pid`. When all are taken it stores in front of the bitmap. -/
def allocatePid (s : Tasks) : Exec (Nat × Tasks) :=
  match bitmapScan s.pidBitmap 1 with
  | none => throw .undefined
  | some bitIdx => return (bitIdx + 1, { s with pidBitmap := bitmapSet s.pidBitmap bitIdx true })

/-- `release_pid`. -/
def releasePid (s : Tasks) (pid : Nat) : Tasks := { s with pidBitmap := bitmapSet s.pidBitmap (pid - 1) false }

/-- `pid2thread`. -/
def pid2thread (s : Tasks) (pid : Int) : Option TaskStruct := s.allList.find? fun t => t.pid = pid

/-- `thread_block` of the task `pid`. -/
def threadBlock (s : Tasks) (pid : Nat) (stat : TaskStatus) : Tasks := s.update pid fun t => { t with status := stat }

/-- `thread_unblock`. -/
def threadUnblock (s : Tasks) (pid : Nat) : Tasks := s.update pid fun t => { t with status := .ready }

/-- `sys_fork` by `parent`. The task structure, a buffer, the bitmap of the address space
and the page directory are allocated in this order; `pages` of them are to be had. The
number of the child is taken after the second, and is not given back. -/
def sysFork (parent : TaskStruct) (pages : Nat) (s : Tasks) : Exec Tasks := do
  assertThat (parent.user = true)
  if pages < 2 then return s
  else
    let (pid, s) ← allocatePid s
    if pages < 4 then return s
    else return { s with allList := s.allList ++
      [{ parent with pid := pid, parentPid := parent.pid, status := .ready }] }

/-- `thread_exit` of a task that is not the running one. -/
def threadExit (s : Tasks) (pid : Nat) : Tasks :=
  releasePid { s with allList := s.allList.filter fun t => t.pid ≠ pid } pid

/-- One turn of the loop of `sys_wait` by `parent`. -/
def sysWait (parent : TaskStruct) (s : Tasks) : Tasks :=
  let returned := fun s : Tasks => s.update parent.pid fun t => { t with inWait := false }
  match s.allList.find? fun t => t.parentPid = (parent.pid : Int) ∧ t.status = .hanging with
  | some child => returned (threadExit s child.pid)
  | none =>
    match s.allList.find? fun t => t.parentPid = (parent.pid : Int) with
    | none => returned s
    | some _ => (threadBlock s parent.pid .waiting).update parent.pid fun t => { t with inWait := true }

/-- `init_adopt_a_child` for every task. -/
def initAdopt (s : Tasks) (pid : Nat) : Tasks :=
  { s with allList := s.allList.map fun t => if t.parentPid = (pid : Int) then { t with parentPid := 1 } else t }

/-- A value stored in an `int8_t`. -/
def int8 (x : Int) : Int := x.bmod 256

/-- `sys_exit` by `child`; the status is kept in an `int8_t`. -/
def sysExit (child : TaskStruct) (status : Int) (s : Tasks) : Exec Tasks := do
  let s := s.update child.pid fun t => { t with exitStatus := int8 status }
  assertThat (child.parentPid ≠ -1)
  let s := initAdopt s child.pid
  -- the caller is one of the tasks looked at
  match pid2thread s (if child.parentPid = child.pid then 1 else child.parentPid) with
  | none => throw .undefined
  | some parent =>
    let s := if parent.status = .waiting then threadUnblock s parent.pid else s
    return threadBlock s child.pid .hanging

/-- What happens next: the scheduler picks a task, or the running one makes a call. -/
inductive Action where
  | schedule (pid : Nat)
  | fork (pages : Nat)
  | wait
  | exit (status : Int)
  deriving DecidableEq, Repr

/-- The running task. -/
def Tasks.current (s : Tasks) : Option TaskStruct := s.allList.find? fun t => t.status = .running

/-- `schedule`: the running task becomes ready, and `pid`, which is ready, runs. -/
def schedule (pid : Nat) (s : Tasks) : Exec Tasks := do
  defined (∃ t ∈ s.allList, t.pid = pid ∧ t.status = .ready)
  let s := { s with allList := s.allList.map fun t : TaskStruct =>
    if t.status = TaskStatus.running then { t with status := .ready } else t }
  return s.update pid fun t => { t with status := .running }

/-- One step of the system. A task inside `sys_wait` does nothing else. -/
def act (s : Tasks) : Action → Exec Tasks
  | .schedule pid => schedule pid s
  | .fork pages =>
    match s.current with
    | none => throw .undefined
    | some t => do
      defined (t.inWait = false)
      sysFork t pages s
  | .wait =>
    match s.current with
    | none => throw .undefined
    | some t => do
      defined (t.user = true)
      return sysWait t s
  | .exit status =>
    match s.current with
    | none => throw .undefined
    | some t => do
      defined (t.user = true ∧ t.inWait = false)
      sysExit t status s

/-- The tasks `thread_init` starts with: `init`, the main thread and the idle thread. -/
def bootTasks : Tasks where
  allList := [⟨1, -1, .ready, 0, true, false⟩, ⟨2, -1, .running, 0, false, false⟩, ⟨3, -1, .ready, 0, false, false⟩]
  pidBitmap := bitmapSet (bitmapSet (bitmapSet ⟨128, fun _ => 0#8⟩ 0 true) 1 true) 2 true

/-- No task waits while it has a child to reap. -/
def NoMissed (s : Tasks) : Prop :=
  ∀ w ∈ s.allList, w.status = .waiting → ∀ c ∈ s.allList, c.parentPid = w.pid → c.status ≠ .hanging

/-- The call is the exit of a task with a child that already exited, while `init`, which
adopts that child, waits and is not woken, as it is not the parent. -/
def MissesAdopted (s : Tasks) (a : Action) : Prop :=
  ∃ status t, a = .exit status ∧ s.current = some t ∧ t.parentPid ≠ 1 ∧
    (∃ c ∈ s.allList, c.parentPid = t.pid ∧ c.status = .hanging) ∧
    ∃ w ∈ s.allList, w.pid = 1 ∧ w.status = .waiting

/-- The tasks have different numbers, and these are taken in the pool. -/
structure Numbered (s : Tasks) : Prop where
  distinct : (s.allList.map TaskStruct.pid).Nodup
  taken : ∀ t ∈ s.allList, 0 < t.pid ∧ s.pidBitmap.Set (t.pid - 1)

section Steps

variable {s s' : Tasks} {pid : Nat} {t : TaskStruct}

theorem mem_update {f : TaskStruct → TaskStruct} {t' : TaskStruct} :
    t' ∈ (s.update pid f).allList ↔ ∃ t ∈ s.allList, (if t.pid = pid then f t else t) = t' := by
  simp only [Tasks.update, List.mem_map]

theorem pids_update {f : TaskStruct → TaskStruct} (same : ∀ t, (f t).pid = t.pid) :
    (s.update pid f).allList.map TaskStruct.pid = s.allList.map TaskStruct.pid := by
  simp only [Tasks.update, List.map_map]
  apply List.map_congr_left
  intro t _
  simp only [Function.comp_apply]
  split
  · exact same t
  · rfl

theorem pids_initAdopt : (initAdopt s pid).allList.map TaskStruct.pid = s.allList.map TaskStruct.pid := by
  simp only [initAdopt, List.map_map]
  apply List.map_congr_left
  intro t _
  simp only [Function.comp_apply]
  split <;> rfl

/-- A change of the tasks that leaves their numbers alone. -/
theorem Numbered.of_pids (num : Numbered s) (pids : s'.allList.map TaskStruct.pid = s.allList.map TaskStruct.pid)
    (bits : s'.pidBitmap = s.pidBitmap) : Numbered s' := by
  refine ⟨pids ▸ num.distinct, fun t mem => ?_⟩
  have same : t.pid ∈ s.allList.map TaskStruct.pid := pids ▸ List.mem_map_of_mem mem
  obtain ⟨u, memu, eq⟩ := List.mem_map.1 same
  rw [bits, ← eq]
  exact num.taken u memu

theorem Numbered.update (num : Numbered s) {f : TaskStruct → TaskStruct} (same : ∀ t, (f t).pid = t.pid) :
    Numbered (s.update pid f) :=
  num.of_pids (pids_update same) rfl

theorem Numbered.unique (num : Numbered s) {u : TaskStruct} (ht : t ∈ s.allList) (hu : u ∈ s.allList) (eq : t.pid = u.pid) :
    t = u :=
  List.inj_on_of_nodup_map num.distinct ht hu eq

/-- Nobody new waits, and nobody new is to be reaped. -/
theorem NoMissed.mono (h : NoMissed s)
    (waiting : ∀ w' ∈ s'.allList, w'.status = .waiting → ∃ w ∈ s.allList, w.status = .waiting ∧ w.pid = w'.pid)
    (hanging : ∀ c' ∈ s'.allList, c'.status = .hanging →
      ∃ c ∈ s.allList, c.status = .hanging ∧ c.parentPid = c'.parentPid) : NoMissed s' := by
  intro w' memw' isWaiting c' memc' child isHanging
  obtain ⟨w, memw, waits, pid⟩ := waiting w' memw' isWaiting
  obtain ⟨c, memc, hangs, parent⟩ := hanging c' memc' isHanging
  exact h w memw waits c memc (by rw [parent, child, pid]) hangs

theorem current_some (h : s.current = some t) : t ∈ s.allList ∧ t.status = .running := by
  refine ⟨List.mem_of_find?_eq_some h, ?_⟩
  have := List.find?_some h
  simpa using this

theorem allocatePid_ok {p : Nat} (h : allocatePid s = .ok (p, s')) :
    0 < p ∧ ¬ s.pidBitmap.Set (p - 1) ∧ s'.allList = s.allList ∧ s'.pidBitmap = bitmapSet s.pidBitmap (p - 1) true := by
  simp only [allocatePid] at h
  split at h
  · exact (throw_ok.1 h).elim
  · rename_i i found
    rw [pure_ok] at h
    cases h
    exact ⟨Nat.succ_pos i, (bitmapScan_one_some found).2.1, rfl, rfl⟩

/-- **`schedule`** changes who runs and nothing else. -/
theorem schedule_ok (h : schedule pid s = .ok s') :
    s'.allList.map TaskStruct.pid = s.allList.map TaskStruct.pid ∧ s'.pidBitmap = s.pidBitmap ∧
      ∀ t' ∈ s'.allList, ∃ t ∈ s.allList, t'.pid = t.pid ∧ t'.parentPid = t.parentPid ∧
        (t'.status = t.status ∨ t'.status = .ready ∨ t'.status = .running) := by
  simp only [schedule, bind_ok, defined_ok, pure_ok, exists_const] at h
  obtain ⟨-, rfl⟩ := h
  refine ⟨?_, rfl, fun t' mem => ?_⟩
  · refine (pids_update fun _ => by rfl).trans ?_
    rw [List.map_map]
    apply List.map_congr_left
    intro t _
    simp only [Function.comp_apply]
    split <;> rfl
  · rw [mem_update] at mem
    obtain ⟨u, memu, rfl⟩ := mem
    obtain ⟨t, mem, rfl⟩ := List.mem_map.1 memu
    refine ⟨t, mem, ?_⟩
    by_cases e : t.status = .running
    · simp only [if_pos e]
      split <;> simp
    · simp only [if_neg e]
      split <;> simp

/-- **`sys_fork`** adds at most one task, which is ready. -/
theorem sysFork_ok {parent : TaskStruct} {pages : Nat} (h : sysFork parent pages s = .ok s') :
    s' = s ∨ ∃ p, 0 < p ∧ ¬ s.pidBitmap.Set (p - 1) ∧ s'.pidBitmap = bitmapSet s.pidBitmap (p - 1) true ∧
      (s'.allList = s.allList ∨ s'.allList = s.allList ++
        [{ parent with pid := p, parentPid := parent.pid, status := .ready }]) := by
  simp only [sysFork, bind_ok, assertThat_ok, exists_const] at h
  obtain ⟨-, h⟩ := h
  split at h
  · rw [pure_ok] at h
    exact .inl h.symm
  simp only [bind_ok, Prod.exists] at h
  obtain ⟨p, s1, allocated, h⟩ := h
  obtain ⟨pos, free, list, bits⟩ := allocatePid_ok allocated
  right
  refine ⟨p, pos, free, ?_⟩
  split at h
  · rw [pure_ok] at h
    subst h
    exact ⟨bits, .inl list⟩
  · rw [pure_ok] at h
    subst h
    exact ⟨bits, .inr (by rw [list])⟩

theorem sysFork_numbered {parent : TaskStruct} {pages : Nat} (num : Numbered s) (h : sysFork parent pages s = .ok s') :
    Numbered s' := by
  obtain rfl | ⟨p, pos, free, bits, list⟩ := sysFork_ok h
  · exact num
  have more : ∀ i, s.pidBitmap.Set i → s'.pidBitmap.Set i := by
    intro i set
    rw [bits, set_bitmapSet]
    split
    · rfl
    · exact set
  obtain same | new := list
  · refine ⟨same ▸ num.distinct, fun t mem => ?_⟩
    rw [same] at mem
    exact ⟨(num.taken t mem).1, more _ (num.taken t mem).2⟩
  · refine ⟨?_, fun t mem => ?_⟩
    · rw [new, List.map_append, List.nodup_append]
      refine ⟨num.distinct, by simp, fun a old b isNew eq => ?_⟩
      obtain ⟨t, mem, rfl⟩ := List.mem_map.1 old
      simp only [List.map_cons, List.map_nil, List.mem_singleton] at isNew
      exact free (isNew ▸ eq ▸ (num.taken t mem).2)
    · rw [new, List.mem_append, List.mem_singleton] at mem
      obtain old | rfl := mem
      · exact ⟨(num.taken t old).1, more _ (num.taken t old).2⟩
      · exact ⟨pos, by rw [bits, set_bitmapSet, if_pos rfl]⟩

theorem sysFork_noMissed {parent : TaskStruct} {pages : Nat} (inv : NoMissed s) (h : sysFork parent pages s = .ok s') :
    NoMissed s' := by
  obtain rfl | ⟨p, -, -, -, same | new⟩ := sysFork_ok h
  · exact inv
  · exact inv.mono (fun w mem waits => ⟨w, same ▸ mem, waits, rfl⟩) fun c mem hangs => ⟨c, same ▸ mem, hangs, rfl⟩
  · refine inv.mono (fun w mem waits => ?_) fun c mem hangs => ?_
    · rw [new, List.mem_append, List.mem_singleton] at mem
      obtain old | rfl := mem
      · exact ⟨w, old, waits, rfl⟩
      · cases waits
    · rw [new, List.mem_append, List.mem_singleton] at mem
      obtain old | rfl := mem
      · exact ⟨c, old, hangs, rfl⟩
      · cases hangs

/-- An update of a task that only takes it out of `sys_wait` or changes its exit status. -/
theorem NoMissed.update (inv : NoMissed s) {f : TaskStruct → TaskStruct}
    (same : ∀ t, (f t).pid = t.pid ∧ (f t).parentPid = t.parentPid ∧ (f t).status = t.status) :
    NoMissed (s.update pid f) := by
  have old : ∀ t' ∈ (s.update pid f).allList,
      ∃ t ∈ s.allList, t.pid = t'.pid ∧ t.parentPid = t'.parentPid ∧ t.status = t'.status := by
    intro t' mem
    obtain ⟨t, memt, rfl⟩ := mem_update.1 mem
    refine ⟨t, memt, ?_⟩
    split
    · exact ⟨(same t).1.symm, (same t).2.1.symm, (same t).2.2.symm⟩
    · exact ⟨rfl, rfl, rfl⟩
  refine inv.mono (fun w mem waits => ?_) fun c mem hangs => ?_
  · obtain ⟨t, memt, pid, -, status⟩ := old w mem
    exact ⟨t, memt, status.trans waits, pid⟩
  · obtain ⟨t, memt, -, parent, status⟩ := old c mem
    exact ⟨t, memt, status.trans hangs, parent⟩

theorem mem_threadExit {u : TaskStruct} : u ∈ (threadExit s pid).allList ↔ u ∈ s.allList ∧ u.pid ≠ pid := by
  simp only [threadExit, releasePid, List.mem_filter, decide_eq_true_eq]

theorem threadExit_numbered (num : Numbered s) (mem : t ∈ s.allList) : Numbered (threadExit s t.pid) := by
  refine ⟨(List.filter_sublist.map _).nodup num.distinct, fun u memu => ?_⟩
  obtain ⟨old, ne⟩ := mem_threadExit.1 memu
  obtain ⟨pos, set⟩ := num.taken u old
  have post := (num.taken t mem).1
  refine ⟨pos, ?_⟩
  simp only [threadExit, releasePid]
  rw [set_bitmapSet, if_neg (by omega)]
  exact set

theorem threadExit_noMissed (inv : NoMissed s) : NoMissed (threadExit s pid) :=
  inv.mono (fun w memw waits => ⟨w, (mem_threadExit.1 memw).1, waits, rfl⟩)
    fun c memc hangs => ⟨c, (mem_threadExit.1 memc).1, hangs, rfl⟩

/-- **One turn of `sys_wait`**: the task blocks only when it has no child to reap. -/
theorem sysWait_inv {parent : TaskStruct} (num : Numbered s) (inv : NoMissed s) :
    Numbered (sysWait parent s) ∧ NoMissed (sysWait parent s) := by
  unfold sysWait
  dsimp only
  split
  · rename_i child found
    have num1 := threadExit_numbered num (List.mem_of_find?_eq_some found)
    exact ⟨num1.update fun _ => by rfl, (threadExit_noMissed inv).update fun _ => ⟨rfl, rfl, rfl⟩⟩
  · rename_i none
    have noneHangs : ∀ c ∈ s.allList, c.parentPid = parent.pid → c.status ≠ .hanging := by
      intro c mem child hangs
      have := List.find?_eq_none.1 none c mem
      simp [child, hangs] at this
    split
    · exact ⟨num.update fun _ => by rfl, inv.update fun _ => ⟨rfl, rfl, rfl⟩⟩
    · have blocked : NoMissed (threadBlock s parent.pid .waiting) := by
        intro w memw waits c memc child
        obtain ⟨w0, memw0, rfl⟩ := mem_update.1 memw
        obtain ⟨c0, memc0, rfl⟩ := mem_update.1 memc
        by_cases mine : c0.pid = parent.pid
        · rw [if_pos mine]
          exact fun h => by cases h
        · rw [if_neg mine] at child ⊢
          by_cases caller : w0.pid = parent.pid
          · rw [if_pos caller] at child
            exact noneHangs c0 memc0 (by rw [child, caller])
          · rw [if_neg caller] at waits child
            exact inv w0 memw0 waits c0 memc0 child
      exact ⟨(num.update fun _ => by rfl).update fun _ => by rfl, blocked.update fun _ => ⟨rfl, rfl, rfl⟩⟩

/-- A task after `child` exited, `q` being the parent. -/
def afterExit (child q : TaskStruct) (status : Int) (t : TaskStruct) : TaskStruct :=
  { t with
    exitStatus := if t.pid = child.pid then int8 status else t.exitStatus
    parentPid := if t.parentPid = child.pid then 1 else t.parentPid
    status := if t.pid = child.pid then .hanging
      else if t.pid = q.pid ∧ q.status = .waiting then .ready else t.status }

/-- **`sys_exit`**: the children go to `init`, the parent is woken if it waits, the caller
is to be reaped. -/
theorem sysExit_ok {child : TaskStruct} {status : Int} (h : sysExit child status s = .ok s') :
    s'.pidBitmap = s.pidBitmap ∧ ∃ q ∈ s.allList, q.pid = (if child.parentPid = child.pid then 1 else child.parentPid) ∧
      s'.allList = s.allList.map (afterExit child q status) := by
  simp only [sysExit, bind_ok, assertThat_ok, exists_const] at h
  obtain ⟨-, h⟩ := h
  -- the task structures after the adoption
  have adopted : (initAdopt (s.update child.pid fun t => { t with exitStatus := int8 status }) child.pid).allList =
      s.allList.map fun t => { t with
        exitStatus := if t.pid = child.pid then int8 status else t.exitStatus
        parentPid := if t.parentPid = child.pid then 1 else t.parentPid } := by
    simp only [initAdopt, Tasks.update, List.map_map]
    apply List.map_congr_left
    intro t _
    simp only [Function.comp_apply]
    by_cases e : t.pid = child.pid
    · simp only [if_pos e]
      split <;> rfl
    · simp only [if_neg e]
      split <;> rfl
  have bits : (initAdopt (s.update child.pid fun t => { t with exitStatus := int8 status }) child.pid).pidBitmap =
      s.pidBitmap := rfl
  generalize initAdopt (s.update child.pid fun t => { t with exitStatus := int8 status }) child.pid = s1 at h adopted bits
  split at h
  · exact (throw_ok.1 h).elim
  rename_i parent found
  rw [pure_ok] at h
  subst h
  have mem := List.mem_of_find?_eq_some found
  have isParent := List.find?_some found
  rw [adopted] at mem
  obtain ⟨q, memq, rfl⟩ := List.mem_map.1 mem
  simp only [decide_eq_true_eq] at isParent
  constructor
  · rw [← bits]
    simp only [threadBlock, threadUnblock, Tasks.update]
    split <;> rfl
  refine ⟨q, memq, isParent, ?_⟩
  by_cases waits : q.status = .waiting
  · rw [if_pos waits]
    simp only [threadBlock, threadUnblock, Tasks.update, adopted, List.map_map]
    apply List.map_congr_left
    intro t _
    simp only [Function.comp_apply, afterExit, waits, and_true]
    by_cases e : t.pid = q.pid
    · simp only [if_pos e]
      split <;> rfl
    · simp only [if_neg e]
      split <;> rfl
  · rw [if_neg waits]
    simp only [threadBlock, Tasks.update, adopted, List.map_map]
    apply List.map_congr_left
    intro t _
    simp only [Function.comp_apply, afterExit, waits, and_false, if_false]
    split <;> rfl

theorem pids_map {f : TaskStruct → TaskStruct} (same : ∀ t, (f t).pid = t.pid) (l : List TaskStruct) :
    (l.map f).map TaskStruct.pid = l.map TaskStruct.pid := by
  rw [List.map_map]
  exact List.map_congr_left fun t _ => same t

theorem sysExit_inv {child : TaskStruct} {status : Int} (num : Numbered s) (inv : NoMissed s)
    (current : s.current = some child) (seen : ¬ MissesAdopted s (.exit status))
    (h : sysExit child status s = .ok s') : Numbered s' ∧ NoMissed s' := by
  obtain ⟨bits, q, memq, isParent, list⟩ := sysExit_ok h
  have pids : s'.allList.map TaskStruct.pid = s.allList.map TaskStruct.pid := by
    rw [list]
    exact pids_map (fun _ => by rfl) _
  refine ⟨num.of_pids pids bits, ?_⟩
  intro w' memw' waits c' memc' isChild hangs
  rw [list] at memw' memc'
  obtain ⟨w, memw, rfl⟩ := List.mem_map.1 memw'
  obtain ⟨c, memc, rfl⟩ := List.mem_map.1 memc'
  have statw := waits.symm
  have statc := hangs.symm
  have parc : (afterExit child q status c).parentPid = if c.parentPid = child.pid then 1 else c.parentPid := rfl
  have pidw : (afterExit child q status w).pid = w.pid := rfl
  simp only [afterExit] at statw statc
  -- the waiting task is neither the caller nor the parent, which was woken
  have notCaller : w.pid ≠ child.pid := fun e => by rw [if_pos e] at statw; cases statw
  rw [if_neg notCaller] at statw
  have notWoken : ¬ (w.pid = q.pid ∧ q.status = .waiting) := fun e => by rw [if_pos e] at statw; cases statw
  rw [if_neg notWoken] at statw
  have notParent : (w.pid : Int) ≠ if child.parentPid = child.pid then 1 else child.parentPid := by
    intro e
    have same : w.pid = q.pid := by omega
    have eq := num.unique memw memq same
    exact notWoken ⟨same, eq ▸ statw.symm⟩
  obtain ⟨memChild, running⟩ := current_some current
  by_cases caller : c.pid = child.pid
  · -- the caller is no child of the waiting task
    obtain rfl := num.unique memc memChild caller
    exact notParent (by rw [← parc, isChild, pidw])
  rw [if_neg caller] at statc
  have hung : c.status = .hanging := by
    split at statc
    · cases statc
    · exact statc.symm
  rw [parc] at isChild
  split at isChild
  · -- adopted, so the waiting task is `init`
    rename_i adopted
    have isInit : w.pid = 1 := by omega
    refine seen ⟨status, child, rfl, current, fun e => notParent ?_, ⟨c, memc, adopted, hung⟩, w, memw, isInit, statw.symm⟩
    rw [isInit, e]
    split <;> rfl
  · exact inv w memw statw.symm c memc (by rw [isChild, pidw]) hung

/-- One step keeps the invariant unless it hands `init` a child to reap behind its back. -/
theorem act_inv {a : Action} (num : Numbered s) (inv : NoMissed s) (seen : ¬ MissesAdopted s a) (h : act s a = .ok s') :
    Numbered s' ∧ NoMissed s' := by
  cases a with
  | schedule pid =>
    obtain ⟨pids, bits, old⟩ := schedule_ok h
    refine ⟨num.of_pids pids bits, inv.mono (fun w' mem waits => ?_) fun c' mem hangs => ?_⟩
    · obtain ⟨w, memw, pidw, -, stat⟩ := old w' mem
      rw [waits] at stat
      exact ⟨w, memw, by simpa [eq_comm] using stat, pidw.symm⟩
    · obtain ⟨c, memc, -, parent, stat⟩ := old c' mem
      rw [hangs] at stat
      exact ⟨c, memc, by simpa [eq_comm] using stat, parent.symm⟩
  | fork pages =>
    simp only [act] at h
    split at h
    · exact (throw_ok.1 h).elim
    · simp only [bind_ok, defined_ok, exists_const] at h
      exact ⟨sysFork_numbered num h.2, sysFork_noMissed inv h.2⟩
  | wait =>
    simp only [act] at h
    split at h
    · exact (throw_ok.1 h).elim
    · simp only [bind_ok, defined_ok, pure_ok, exists_const] at h
      obtain ⟨-, rfl⟩ := h
      exact sysWait_inv num inv
  | exit status =>
    simp only [act] at h
    split at h
    · exact (throw_ok.1 h).elim
    · rename_i t current
      simp only [bind_ok, defined_ok, exists_const] at h
      exact sysExit_inv num inv current seen h.2

end Steps

/-- A run: any interleaving of the steps `ok` allows. -/
abbrev TaskRun (ok : Tasks → Action → Prop) : Tasks → Tasks → Prop :=
  Relation.ReflTransGen fun s s' => ∃ a, ok s a ∧ act s a = .ok s'

theorem bootTasks_numbered : Numbered bootTasks := by
  refine ⟨by decide, fun t mem => ?_⟩
  simp only [bootTasks, List.mem_cons, List.not_mem_nil, or_false] at mem
  obtain rfl | rfl | rfl := mem <;> decide

/-- **No missed reaping.** Along every interleaving of forks, waits and exits in which no
task exits with a child to reap while `init` waits and is not its parent, no task waits
while it has a child to reap. -/
theorem noMissed_of_run {s : Tasks} (run : TaskRun (fun s a => ¬ MissesAdopted s a) bootTasks s) : NoMissed s := by
  have inv : Numbered s ∧ NoMissed s := by
    induction run with
    | refl =>
      refine ⟨bootTasks_numbered, fun w mem waits => ?_⟩
      simp only [bootTasks, List.mem_cons, List.not_mem_nil, or_false] at mem
      obtain rfl | rfl | rfl := mem <;> cases waits
    | tail _ step ih =>
      obtain ⟨a, seen, h⟩ := step
      exact act_inv ih.1 ih.2 seen h
  exact inv.2

/-- Take the steps one after another, as long as each of them is allowed. -/
def runActions (test : Tasks → Action → Bool) : List Action → Tasks → Exec Tasks
  | [], s => return s
  | a :: rest, s => do
    assertThat (test s a = true)
    let s' ← act s a
    runActions test rest s'

theorem runActions_run {ok : Tasks → Action → Prop} {test : Tasks → Action → Bool}
    (sound : ∀ s a, test s a = true → ok s a) {s' : Tasks} :
    ∀ actions s, runActions test actions s = .ok s' → TaskRun ok s s' := by
  intro actions
  induction actions with
  | nil =>
    intro s h
    rw [runActions, pure_ok] at h
    rw [h]
  | cons a rest ih =>
    intro s h
    simp only [runActions, bind_ok, assertThat_ok, exists_const] at h
    obtain ⟨allowed, s1, acted, h⟩ := h
    exact .head ⟨a, sound _ _ allowed, acted⟩ (ih s1 h)

/-- A test that is true of steps that hand `init` nothing to reap behind its back. -/
def seenTest (s : Tasks) : Action → Bool
  | .exit _ => match s.current with
    | none => true
    | some t => decide (t.parentPid = 1) || !s.allList.any fun c => decide (c.parentPid = t.pid ∧ c.status = .hanging)
  | _ => true

theorem seenTest_sound {s : Tasks} {a : Action} (h : seenTest s a = true) : ¬ MissesAdopted s a := by
  rintro ⟨status, t, rfl, current, notInit, ⟨c, mem, child, hangs⟩, -⟩
  simp only [seenTest, current, notInit, decide_false, Bool.false_or, Bool.not_eq_true', List.any_eq_false] at h
  exact h c mem (by simp [child, hangs])

/-- `init` waits for its child, which exits, and is woken. -/
theorem noMissed_of_run_wakes :
    ∃ s, TaskRun (fun s a => ¬ MissesAdopted s a) bootTasks s ∧
      (∃ c ∈ s.allList, c.pid = 4 ∧ c.status = .hanging) ∧ NoMissed s := by
  have ran : returns (runActions seenTest [.schedule 1, .fork 4, .wait, .schedule 4, .exit 0] bootTasks)
      (fun s => s.allList.any fun c => decide (c.pid = 4 ∧ c.status = .hanging)) = true := by decide
  obtain ⟨s, ran, hangs⟩ := returns_true.1 ran
  have run := runActions_run (fun _ _ => seenTest_sound) _ _ ran
  exact ⟨s, run, by simpa using hangs, noMissed_of_run run⟩

/-- `init` waits for the shell (4), which forks 5, which forks 6; 6 exits, then 5. -/
def adoptedZombie : List Action :=
  [.schedule 1, .fork 4, .wait, .schedule 4, .fork 4, .schedule 5, .fork 4, .schedule 6, .exit 0, .schedule 5, .exit 0]

/-- A child that exited before its parent is handed to `init`, which sleeps on. -/
theorem adoptedZombie_missed : ¬ ∀ s, TaskRun (fun _ _ => True) bootTasks s → NoMissed s := by
  intro claim
  have ran : returns (runActions (fun _ _ => true) adoptedZombie bootTasks)
      (fun s => s.allList.any (fun w => decide (w.pid = 1 ∧ w.status = .waiting)) &&
        s.allList.any fun c => decide (c.parentPid = 1 ∧ c.status = .hanging)) = true := by decide
  obtain ⟨s, ran, reached⟩ := returns_true.1 ran
  simp only [Bool.and_eq_true, List.any_eq_true, decide_eq_true_eq] at reached
  obtain ⟨⟨w, memw, isInit, waits⟩, c, memc, child, hangs⟩ := reached
  exact claim s (runActions_run (fun _ _ _ => trivial) _ _ ran) w memw waits c memc (by rw [child, isInit]; rfl) hangs

end Sparrow.Reap
