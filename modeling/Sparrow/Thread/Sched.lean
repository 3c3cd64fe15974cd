import Mathlib.Data.List.Nodup
import Mathlib.Logic.Function.Basic
import Sparrow.Lib.Exec

/-!
# The scheduler

`thread/thread.c` and the semaphores of `thread/sync.c`. A task is named by the page its
`task_struct` is at. A list of tasks is the list of these pages in order: every one of
`thread_ready_list` and the lists of waiters links the same node `general_tag`, so the lists
say where a task stands only as long as no task is in two places, and that is a part of what
is proved.

The processor's interrupt flag is part of the state. A task that gives up the processor
keeps the flag it will have when it is back: `old_status` in `thread_block` and
`thread_yield`, the flags saved by the interrupt in the handler of the timer.

One operation runs after another, so `pid_lock` is free whenever one of them takes it, and it
is left out.
-/

namespace Sparrow
set_option autoImplicit false

/-- `enum task_status`. -/
inductive TaskStatus where
  | running
  | ready
  | blocked
  | waiting
  | hanging
  | died
  deriving DecidableEq, Repr

/-- The statuses `thread_block` accepts and `thread_unblock` expects. -/
def TaskStatus.Sleeps (stat : TaskStatus) : Prop := stat = .blocked ∨ stat = .waiting ∨ stat = .hanging

instance (stat : TaskStatus) : Decidable stat.Sleeps := inferInstanceAs (Decidable (_ ∨ _ ∨ _))

/-- `struct semaphore`. -/
structure Semaphore where
  value : Nat
  waiters : List Nat
  deriving DecidableEq, Repr

namespace Sched

/-- The fields of `struct task_struct` the scheduler reads or writes; `intrBack` is the
interrupt flag the task gets back when it runs again. -/
structure Task where
  status : TaskStatus
  priority : Nat
  ticks : Nat
  elapsedTicks : Nat
  intrBack : Bool
  deriving DecidableEq, Repr

structure Kernel where
  tasks : Nat → Task
  semas : Nat → Semaphore
  running : Nat
  readyList : List Nat
  allList : List Nat
  intr : Bool
  mainThread : Nat
  idleThread : Nat

def Kernel.setStatus (k : Kernel) (t : Nat) (stat : TaskStatus) : Kernel :=
  { k with tasks := Function.update k.tasks t { k.tasks t with status := stat } }

def Kernel.setSema (k : Kernel) (psema : Nat) (s : Semaphore) : Kernel :=
  { k with semas := Function.update k.semas psema s }

/-- `thread_unblock`. It disables interrupts and restores them. -/
def threadUnblock (k : Kernel) (pthread : Nat) : Exec Kernel := do
  assertThat (k.tasks pthread).status.Sleeps
  if (k.tasks pthread).status ≠ .ready then
    assertThat (pthread ∉ k.readyList)
    return { k.setStatus pthread .ready with readyList := pthread :: k.readyList }
  else return k

/-- `switch_to`: `next` goes on with its own interrupt flag. -/
def switchTo (k : Kernel) (next : Nat) : Kernel :=
  { k with running := next, intr := (k.tasks next).intrBack }

/-- In `schedule`: a task whose time is up goes to the end of the ready list. -/
def requeue (k : Kernel) : Exec Kernel :=
  let cur := k.tasks k.running
  if cur.status = .running then do
    assertThat (k.running ∉ k.readyList)
    return { k with
      readyList := k.readyList ++ [k.running]
      tasks := Function.update k.tasks k.running { cur with ticks := cur.priority, status := .ready } }
  else return k

/-- In `schedule`: when no task is ready, the idle task is woken. -/
def wakeIdle (k : Kernel) : Exec Kernel :=
  if k.readyList = [] then threadUnblock k k.idleThread else return k

/-- In `schedule`: the first ready task gets the processor. -/
def dispatch (k : Kernel) : Exec Kernel :=
  match k.readyList with
  | [] => throw .assert
  | next :: rest => return switchTo { k.setStatus next .running with readyList := rest } next

/-- `schedule`. -/
def schedule (k : Kernel) : Exec Kernel := do
  assertThat (k.intr = false)
  let k ← requeue k
  let k ← wakeIdle k
  dispatch k

/-- The running task disables interrupts and remembers the flag. -/
def Kernel.saveIntr (k : Kernel) : Kernel :=
  { k with
    tasks := Function.update k.tasks k.running { k.tasks k.running with intrBack := k.intr }
    intr := false }

/-- `thread_block`. -/
def threadBlock (k : Kernel) (stat : TaskStatus) : Exec Kernel := do
  assertThat stat.Sleeps
  let k := k.saveIntr
  schedule (k.setStatus k.running stat)

/-- `thread_yield`. -/
def threadYield (k : Kernel) : Exec Kernel := do
  let k := k.saveIntr
  assertThat (k.running ∉ k.readyList)
  schedule { k.setStatus k.running .ready with readyList := k.readyList ++ [k.running] }

/-- `intr_timer_handler`, entered with interrupts off. -/
def intrTimerHandler (k : Kernel) : Exec Kernel :=
  let entered := k.saveIntr
  let cur := entered.tasks k.running
  let counted := { cur with elapsedTicks := (cur.elapsedTicks + 1) % 2 ^ 32 }
  if cur.ticks = 0 then schedule { entered with tasks := Function.update entered.tasks k.running counted }
  else return { entered with
    tasks := Function.update entered.tasks k.running { counted with ticks := cur.ticks - 1 }
    intr := k.intr }

/-- What `init_thread` stores: a new task starts with interrupts enabled. -/
def initThread (k : Kernel) (pthread prio : Nat) : Kernel :=
  let stat := if pthread = k.mainThread then .running else .ready
  { k with tasks := Function.update k.tasks pthread ⟨stat, prio % 256, prio % 256, 0, true⟩ }

/-- `thread_start` on the page `thread`. -/
def threadStart (k : Kernel) (thread prio : Nat) : Exec Kernel := do
  let k := initThread k thread prio
  assertThat (thread ∉ k.readyList)
  assertThat (thread ∉ k.allList)
  return { k with readyList := k.readyList ++ [thread], allList := k.allList ++ [thread] }

/-- `make_main_thread`. -/
def makeMainThread (k : Kernel) : Exec Kernel := do
  let k := initThread { k with mainThread := k.running } k.running 31
  assertThat (k.running ∉ k.allList)
  return { k with allList := k.allList ++ [k.running] }

/-- `thread_init`, run by `main` with interrupts off. `process_execute` starts `init` as
`thread_start` does; what is in memory before is arbitrary. -/
def threadInit (mem : Nat → Task) (values : Nat → Nat) (init main idle : Nat) : Exec Kernel := do
  let k ← threadStart ⟨mem, fun psema => ⟨values psema, []⟩, main, [], [], false, 0, 0⟩ init 31
  let k ← makeMainThread k
  let k ← threadStart k idle 10
  return { k with idleThread := idle }

/-- `thread_exit`. It leaves interrupts disabled. -/
def threadExit (k : Kernel) (threadOver : Nat) (needSchedule : Bool) : Exec Kernel :=
  let k := { k.setStatus threadOver .died with intr := false }
  let k := if threadOver ∈ k.readyList then { k with readyList := k.readyList.erase threadOver } else k
  let k := { k with allList := k.allList.erase threadOver }
  if needSchedule then schedule k else return k

/-- `sema_init`. -/
def semaInit (k : Kernel) (psema value : Nat) : Kernel := k.setSema psema ⟨value, []⟩

/-- `sema_down`: one turn of its loop, and what follows when the loop ends. A task that was
put to sleep here makes another turn when it runs again. -/
def semaDown (k : Kernel) (psema : Nat) : Exec Kernel := do
  let s := k.semas psema
  if s.value = 0 then
    assertThat (k.running ∉ s.waiters)
    threadBlock ({ k with intr := false }.setSema psema { s with waiters := s.waiters ++ [k.running] }) .blocked
  else
    assertThat (s.value - 1 = 0)
    return k.setSema psema { s with value := s.value - 1 }

/-- In `sema_up`: the first waiter is woken. -/
def wakeWaiter (k : Kernel) (psema : Nat) : Exec Kernel :=
  match (k.semas psema).waiters with
  | [] => return k
  | threadBlocked :: rest => threadUnblock (k.setSema psema { k.semas psema with waiters := rest }) threadBlocked

/-- `sema_up`. -/
def semaUp (k : Kernel) (psema : Nat) : Exec Kernel := do
  assertThat ((k.semas psema).value = 0)
  let k ← wakeWaiter k psema
  let s := k.semas psema
  let value := (s.value + 1) % 256
  assertThat (value = 1)
  return k.setSema psema { s with value := value }

/-- What happens next. -/
inductive Op where
  | timer
  | block (stat : TaskStatus)
  | unblock (pthread : Nat)
  | yield
  | start (page prio : Nat)
  | exit
  | reap (threadOver : Nat)
  | init (psema value : Nat)
  | down (psema : Nat)
  | up (psema : Nat)
  | intr (on : Bool)
  deriving DecidableEq, Repr

def act (k : Kernel) : Op → Exec Kernel
  | .timer => intrTimerHandler k
  | .block stat => threadBlock k stat
  | .unblock pthread => threadUnblock k pthread
  | .yield => threadYield k
  | .start page prio => threadStart k page prio
  | .exit => threadExit k k.running true
  | .reap threadOver => threadExit k threadOver false
  | .init psema value => return semaInit k psema value
  | .down psema => semaDown k psema
  | .up psema => semaUp k psema
  | .intr on => return { k with intr := on }

/-- When an operation may be called. The page of a new task is one that `get_kernel_pages`
has handed out, so no task is on it, and it is not that of `main`, which is not from the heap.
The idle task does not exit and its body downs no semaphore, and a semaphore with sleepers is
not initialised again. -/
def Allowed (k : Kernel) : Op → Prop
  | .timer => k.intr = true
  | .block stat => stat.Sleeps
  | .unblock pthread =>
    pthread ∈ k.allList ∧ (k.tasks pthread).status.Sleeps ∧ ∀ psema, pthread ∉ (k.semas psema).waiters
  | .yield => True
  | .start page _ => page ∉ k.allList ∧ page ≠ k.mainThread
  | .exit => k.running ≠ k.idleThread
  | .reap threadOver =>
    threadOver ∈ k.allList ∧ (k.tasks threadOver).status = .hanging ∧ threadOver ≠ k.idleThread
  | .init psema _ => (k.semas psema).waiters = []
  | .down _ => k.running ≠ k.idleThread
  | .up _ => True
  | .intr _ => True

/-- The semaphore's own assertions fail: it is not binary, or it is signalled twice. -/
def Overrun (k : Kernel) : Op → Prop
  | .down psema => 1 < (k.semas psema).value
  | .up psema => (k.semas psema).value ≠ 0
  | _ => False

/-- The states reached after `thread_init`. -/
inductive Reachable : Kernel → Prop where
  | init {mem : Nat → Task} {values : Nat → Nat} {init main idle : Nat} {k : Kernel}
    (pages : [0, init, main, idle].Nodup) (start : threadInit mem values init main idle = .ok k) : Reachable k
  | step {k k' : Kernel} {op : Op} (before : Reachable k) (allowed : Allowed k op) (ran : act k op = .ok k') :
    Reachable k'

/-- The status of a task and the list it is in agree. -/
structure Lists (k : Kernel) : Prop where
  allNodup : k.allList.Nodup
  readyNodup : k.readyList.Nodup
  ready_iff : ∀ t, t ∈ k.readyList ↔ t ∈ k.allList ∧ (k.tasks t).status = .ready
  waitersNodup : ∀ psema, (k.semas psema).waiters.Nodup
  waits : ∀ psema, ∀ t ∈ (k.semas psema).waiters,
    t ∈ k.allList ∧ (k.tasks t).status = .blocked ∧ t ≠ k.idleThread
  waitsOnce : ∀ psema psema' t, t ∈ (k.semas psema).waiters → t ∈ (k.semas psema').waiters → psema = psema'
  idleAlive : k.idleThread ∈ k.allList
  alive : ∀ t ∈ k.allList, (k.tasks t).status ≠ .died

/-- Nothing runs beside the running task, which is about to leave the processor. -/
structure Leaving (k : Kernel) : Prop extends Lists k where
  only : ∀ t ∈ k.allList, (k.tasks t).status = .running → t = k.running
  stays : (k.tasks k.running).status = .running → k.running ∈ k.allList

/-- The invariant between two operations. -/
structure Inv (k : Kernel) : Prop extends Lists k where
  only : ∀ t ∈ k.allList, (k.tasks t).status = .running → t = k.running
  alive_running : k.running ∈ k.allList
  status_running : (k.tasks k.running).status = .running

section Schedule

variable {k : Kernel} {t psema : Nat}

/-- Only the statuses of the live tasks and the lists matter. -/
theorem Lists.congr {k' : Kernel} (h : Lists k) (all : k'.allList = k.allList) (ready : k'.readyList = k.readyList)
    (idle : k'.idleThread = k.idleThread) (semas : ∀ psema, (k'.semas psema).waiters = (k.semas psema).waiters)
    (status : ∀ t ∈ k.allList, (k'.tasks t).status = (k.tasks t).status) : Lists k' := by
  constructor
  · rw [all]
    exact h.allNodup
  · rw [ready]
    exact h.readyNodup
  · intro t
    rw [ready, all, h.ready_iff t]
    exact and_congr_right fun mem => by rw [status t mem]
  · intro psema
    rw [semas]
    exact h.waitersNodup psema
  · intro psema t mem
    rw [semas] at mem
    obtain ⟨live, blocked, notIdle⟩ := h.waits psema t mem
    rw [all, status t live, idle]
    exact ⟨live, blocked, notIdle⟩
  · intro psema psema' t mem mem'
    rw [semas] at mem mem'
    exact h.waitsOnce psema psema' t mem mem'
  · rw [all, idle]
    exact h.idleAlive
  · intro t mem
    rw [all] at mem
    rw [status t mem]
    exact h.alive t mem

/-- A waiter is in no other list. -/
theorem Lists.not_ready (h : Lists k) (mem : t ∈ (k.semas psema).waiters) : t ∉ k.readyList := by
  intro ready
  have blocked := (h.waits psema t mem).2.1
  rw [((h.ready_iff t).1 ready).2] at blocked
  cases blocked

/-- The state after `thread_unblock`. -/
def Kernel.woken (k : Kernel) (t : Nat) : Kernel := { k.setStatus t .ready with readyList := t :: k.readyList }

theorem Lists.unblock (h : Lists k) (live : t ∈ k.allList) (sleeps : (k.tasks t).status.Sleeps)
    (free : ∀ psema, t ∉ (k.semas psema).waiters) : threadUnblock k t = .ok (k.woken t) ∧ Lists (k.woken t) := by
  have notReady : (k.tasks t).status ≠ .ready := by
    rcases sleeps with s | s | s <;> simp [s]
  have absent : t ∉ k.readyList := fun mem => notReady ((h.ready_iff t).1 mem).2
  refine ⟨?_, ?_⟩
  · rw [threadUnblock, assertThat_of sleeps, if_pos notReady, assertThat_of absent]
    rfl
  · constructor
    · exact h.allNodup
    · exact List.nodup_cons.2 ⟨absent, h.readyNodup⟩
    · intro u
      by_cases eq : u = t
      · subst eq
        simp [Kernel.woken, Kernel.setStatus, live]
      · simpa [Kernel.woken, Kernel.setStatus, eq] using h.ready_iff u
    · exact h.waitersNodup
    · intro psema u mem
      have ne : u ≠ t := fun eq => free psema (eq ▸ mem)
      simpa [Kernel.woken, Kernel.setStatus, ne] using h.waits psema u mem
    · exact h.waitsOnce
    · exact h.idleAlive
    · intro u mem
      by_cases eq : u = t
      · subst eq
        simp [Kernel.woken, Kernel.setStatus]
      · simpa [Kernel.woken, Kernel.setStatus, eq] using h.alive u mem

/-- A task that runs is in no list. -/
theorem Lists.running_free (h : Lists k) (status : (k.tasks t).status = .running) :
    t ∉ k.readyList ∧ ∀ psema, t ∉ (k.semas psema).waiters := by
  constructor
  · intro mem
    have ready := ((h.ready_iff t).1 mem).2
    rw [status] at ready
    cases ready
  · intro psema mem
    have blocked := (h.waits psema t mem).2.1
    rw [status] at blocked
    cases blocked

/-- A task that ran is put at the end of the ready list. -/
theorem Lists.enqueue {k' : Kernel} (h : Lists k) (live : t ∈ k.allList) (status : (k.tasks t).status = .running)
    (all : k'.allList = k.allList) (ready : k'.readyList = k.readyList ++ [t]) (idle : k'.idleThread = k.idleThread)
    (semas : k'.semas = k.semas) (now : (k'.tasks t).status = .ready)
    (others : ∀ u, u ≠ t → (k'.tasks u).status = (k.tasks u).status) : Lists k' := by
  obtain ⟨absent, free⟩ := h.running_free status
  constructor
  · rw [all]
    exact h.allNodup
  · rw [ready, List.nodup_append]
    refine ⟨h.readyNodup, List.nodup_singleton t, ?_⟩
    intro u mem v last eq
    rw [List.mem_singleton.1 last] at eq
    exact absent (eq ▸ mem)
  · intro u
    rw [ready, all]
    by_cases eq : u = t
    · subst eq
      simp [live, now]
    · simpa [eq, others u eq] using h.ready_iff u
  · rw [semas]
    exact h.waitersNodup
  · intro psema u mem
    rw [semas] at mem
    have ne : u ≠ t := fun eq => free psema (eq ▸ mem)
    rw [all, idle, others u ne]
    exact h.waits psema u mem
  · rw [semas]
    exact h.waitsOnce
  · rw [all, idle]
    exact h.idleAlive
  · intro u mem
    by_cases eq : u = t
    · rw [eq, now]
      simp
    · rw [others u eq]
      exact h.alive u (all ▸ mem)

/-- After `requeue` no task runs. -/
theorem Leaving.requeue (h : Leaving k) : ∃ k', requeue k = .ok k' ∧ Lists k' ∧
    ∀ t ∈ k'.allList, (k'.tasks t).status ≠ .running := by
  by_cases status : (k.tasks k.running).status = .running
  · have live := h.stays status
    have absent := (h.running_free status).1
    refine ⟨_, by rw [Sched.requeue, if_pos status, assertThat_of absent]; rfl, ?_, ?_⟩
    · refine h.enqueue live status rfl rfl rfl rfl (by simp) ?_
      intro u ne
      simp [ne]
    · intro t mem
      by_cases eq : t = k.running
      · subst eq
        simp
      · simpa [eq] using fun run => eq (h.only t mem run)
  · refine ⟨k, by rw [Sched.requeue, if_neg status]; rfl, h.toLists, ?_⟩
    intro t mem run
    exact status (h.only t mem run ▸ run)

/-- The idle task can be woken whenever no task is ready. -/
theorem Lists.wakeIdle (h : Lists k) (quiet : ∀ t ∈ k.allList, (k.tasks t).status ≠ .running) :
    ∃ k', wakeIdle k = .ok k' ∧ Lists k' ∧ k'.readyList ≠ [] ∧ ∀ t ∈ k'.allList, (k'.tasks t).status ≠ .running := by
  by_cases none : k.readyList = []
  · have sleeps : (k.tasks k.idleThread).status.Sleeps := by
      have notReady : (k.tasks k.idleThread).status ≠ .ready := by
        intro ready
        have mem := (h.ready_iff _).2 ⟨h.idleAlive, ready⟩
        rw [none] at mem
        cases mem
      have notRunning := quiet _ h.idleAlive
      have notDied := h.alive _ h.idleAlive
      unfold TaskStatus.Sleeps
      cases status : (k.tasks k.idleThread).status <;> simp_all
    have free : ∀ psema, k.idleThread ∉ (k.semas psema).waiters := fun psema mem => (h.waits psema _ mem).2.2 rfl
    obtain ⟨ran, lists⟩ := h.unblock h.idleAlive sleeps free
    refine ⟨_, by rw [Sched.wakeIdle, if_pos none, ran], lists, List.cons_ne_nil _ _, ?_⟩
    intro t mem
    by_cases eq : t = k.idleThread
    · subst eq
      simp [Kernel.woken, Kernel.setStatus]
    · simpa [Kernel.woken, Kernel.setStatus, eq] using quiet t mem
  · exact ⟨k, by rw [Sched.wakeIdle, if_neg none]; rfl, h, none, quiet⟩

theorem Lists.dispatch (h : Lists k) (quiet : ∀ t ∈ k.allList, (k.tasks t).status ≠ .running)
    (some : k.readyList ≠ []) : ∃ k', dispatch k = .ok k' ∧ Inv k' := by
  obtain ⟨next, rest, ready⟩ := List.exists_cons_of_ne_nil some
  have nodup := h.readyNodup
  rw [ready, List.nodup_cons] at nodup
  obtain ⟨live, status⟩ := (h.ready_iff next).1 (by rw [ready]; exact List.mem_cons_self)
  refine ⟨_, by rw [Sched.dispatch, ready]; rfl, ?_⟩
  constructor
  · constructor
    · exact h.allNodup
    · exact nodup.2
    · intro t
      by_cases eq : t = next
      · subst eq
        simpa [switchTo, Kernel.setStatus] using nodup.1
      · have other := h.ready_iff t
        rw [ready] at other
        simpa [switchTo, Kernel.setStatus, eq] using other
    · exact h.waitersNodup
    · intro psema t mem
      have ne : t ≠ next := by
        intro eq
        have blocked := (h.waits psema t mem).2.1
        rw [eq, status] at blocked
        cases blocked
      simpa [switchTo, Kernel.setStatus, ne] using h.waits psema t mem
    · exact h.waitsOnce
    · exact h.idleAlive
    · intro t mem
      by_cases eq : t = next
      · subst eq
        simp [switchTo, Kernel.setStatus]
      · simpa [switchTo, Kernel.setStatus, eq] using h.alive t mem
  · intro t mem run
    by_contra ne
    have ne : t ≠ next := ne
    exact quiet t mem (by simpa [switchTo, Kernel.setStatus, ne] using run)
  · exact live
  · simp [switchTo, Kernel.setStatus]

/-- `schedule` finds a task to run, and its assertions hold. -/
theorem Leaving.schedule (h : Leaving k) (off : k.intr = false) : ∃ k', schedule k = .ok k' ∧ Inv k' := by
  obtain ⟨k1, requeued, lists1, quiet1⟩ := h.requeue
  obtain ⟨k2, woken, lists2, some, quiet2⟩ := lists1.wakeIdle quiet1
  obtain ⟨k3, chosen, inv⟩ := lists2.dispatch quiet2 some
  refine ⟨k3, ?_, inv⟩
  rw [Sched.schedule, assertThat_of off, ok_bind, requeued, ok_bind, woken, ok_bind]
  exact chosen

end Schedule

section Operations

variable {k : Kernel} {t psema : Nat}

/-- Only the statuses, the lists and who runs matter. -/
theorem Inv.congr {k' : Kernel} (h : Inv k) (lists : Lists k') (all : k'.allList = k.allList)
    (running : k'.running = k.running) (status : ∀ t, (k'.tasks t).status = (k.tasks t).status) : Inv k' := by
  refine ⟨lists, ?_, ?_, ?_⟩
  · intro t mem run
    rw [status] at run
    rw [running]
    exact h.only t (all ▸ mem) run
  · rw [all, running]
    exact h.alive_running
  · rw [running, status]
    exact h.status_running

/-- Fields other than the status may change. -/
theorem Inv.setTask {task : Task} {intr : Bool} (h : Inv k) (same : task.status = (k.tasks t).status) :
    Inv { k with tasks := Function.update k.tasks t task, intr := intr } := by
  have status : ∀ u, (Function.update k.tasks t task u).status = (k.tasks u).status := by
    intro u
    by_cases eq : u = t
    · subst eq
      simpa using same
    · simp [eq]
  exact h.congr (h.toLists.congr rfl rfl rfl (fun _ => rfl) fun u _ => status u) rfl rfl status

theorem Inv.saveIntr (h : Inv k) : Inv k.saveIntr := h.setTask rfl

/-- Between two operations the running task may leave the processor. -/
theorem Inv.leaving (h : Inv k) : Leaving k := ⟨h.toLists, h.only, fun _ => h.alive_running⟩

/-- A semaphore loses waiters or changes its value. -/
theorem Lists.setSema {s : Semaphore} (h : Lists k) (sub : s.waiters.Sublist (k.semas psema).waiters) :
    Lists (k.setSema psema s) := by
  have fewer : ∀ p, ((k.setSema psema s).semas p).waiters.Sublist (k.semas p).waiters := by
    intro p
    by_cases eq : p = psema
    · subst eq
      simpa [Kernel.setSema] using sub
    · simp [Kernel.setSema, eq]
  constructor
  · exact h.allNodup
  · exact h.readyNodup
  · exact h.ready_iff
  · exact fun p => (h.waitersNodup p).sublist (fewer p)
  · exact fun p t mem => h.waits p t ((fewer p).subset mem)
  · exact fun p p' t mem mem' => h.waitsOnce p p' t ((fewer p).subset mem) ((fewer p').subset mem')
  · exact h.idleAlive
  · exact h.alive

theorem Inv.setSema {s : Semaphore} (h : Inv k) (sub : s.waiters.Sublist (k.semas psema).waiters) :
    Inv (k.setSema psema s) :=
  h.congr (h.toLists.setSema sub) rfl rfl fun _ => rfl

theorem Inv.unblock (h : Inv k) (live : t ∈ k.allList) (sleeps : (k.tasks t).status.Sleeps)
    (free : ∀ psema, t ∉ (k.semas psema).waiters) : threadUnblock k t = .ok (k.woken t) ∧ Inv (k.woken t) := by
  obtain ⟨ran, lists⟩ := h.toLists.unblock live sleeps free
  have ne : k.running ≠ t := by
    intro eq
    rw [← eq, h.status_running] at sleeps
    rcases sleeps with s | s | s <;> cases s
  refine ⟨ran, lists, ?_, h.alive_running, ?_⟩
  · intro u mem run
    by_cases eq : u = t
    · subst eq
      simp [Kernel.woken, Kernel.setStatus] at run
    · simp only [Kernel.woken, Kernel.setStatus, Function.update_of_ne eq] at run
      exact h.only u mem run
  · simpa [Kernel.woken, Kernel.setStatus, ne] using h.status_running

/-- The running task falls asleep. -/
theorem Inv.sleep {stat : TaskStatus} (h : Inv k) (sleeps : stat.Sleeps) : Leaving (k.setStatus k.running stat) := by
  obtain ⟨absent, free⟩ := h.toLists.running_free h.status_running
  have notReady : stat ≠ .ready := by rcases sleeps with s | s | s <;> simp [s]
  have notDied : stat ≠ .died := by rcases sleeps with s | s | s <;> simp [s]
  have notRunning : stat ≠ .running := by rcases sleeps with s | s | s <;> simp [s]
  constructor
  · constructor
    · exact h.allNodup
    · exact h.readyNodup
    · intro u
      by_cases eq : u = k.running
      · subst eq
        simpa [Kernel.setStatus, notReady] using absent
      · simpa [Kernel.setStatus, eq] using h.ready_iff u
    · exact h.waitersNodup
    · intro psema u mem
      have ne : u ≠ k.running := fun eq => free psema (eq ▸ mem)
      simpa [Kernel.setStatus, ne] using h.waits psema u mem
    · exact h.waitsOnce
    · exact h.idleAlive
    · intro u mem
      by_cases eq : u = k.running
      · subst eq
        simpa [Kernel.setStatus] using notDied
      · simpa [Kernel.setStatus, eq] using h.alive u mem
  · intro u mem run
    by_contra ne
    have ne : u ≠ k.running := ne
    exact ne (h.only u mem (by simpa [Kernel.setStatus, ne] using run))
  · intro run
    simp [Kernel.setStatus, notRunning] at run

theorem Inv.block {stat : TaskStatus} (h : Inv k) (sleeps : stat.Sleeps) :
    ∃ k', threadBlock k stat = .ok k' ∧ Inv k' := by
  obtain ⟨k', ran, inv⟩ := (h.saveIntr.sleep sleeps).schedule rfl
  refine ⟨k', ?_, inv⟩
  rw [threadBlock, assertThat_of sleeps]
  exact ran

theorem Inv.yield (h : Inv k) : ∃ k', threadYield k = .ok k' ∧ Inv k' := by
  have saved := h.saveIntr
  have absent := (saved.toLists.running_free saved.status_running).1
  have leaving : Leaving { k.saveIntr.setStatus k.running .ready with
      readyList := k.saveIntr.readyList ++ [k.running] } := by
    constructor
    · refine saved.toLists.enqueue saved.alive_running saved.status_running rfl rfl rfl rfl ?_ ?_
      · simp [Kernel.setStatus, Kernel.saveIntr]
      · intro u ne
        have ne : u ≠ k.running := ne
        simp [Kernel.setStatus, ne]
    · intro u mem run
      by_contra ne
      have ne : u ≠ k.running := ne
      exact ne (saved.only u mem (by simpa [Kernel.setStatus, ne] using run))
    · exact fun _ => saved.alive_running
  obtain ⟨k', ran, inv⟩ := leaving.schedule rfl
  refine ⟨k', ?_, inv⟩
  rw [threadYield, assertThat_of absent]
  exact ran

theorem Inv.timer (h : Inv k) : ∃ k', intrTimerHandler k = .ok k' ∧ Inv k' := by
  have saved := h.saveIntr
  by_cases up : (k.saveIntr.tasks k.running).ticks = 0
  · have counted : Inv { k.saveIntr with
        tasks := Function.update k.saveIntr.tasks k.running
          { k.saveIntr.tasks k.running with elapsedTicks := ((k.saveIntr.tasks k.running).elapsedTicks + 1) % 2 ^ 32 } } :=
      saved.setTask rfl
    obtain ⟨k', ran, inv⟩ := counted.leaving.schedule rfl
    refine ⟨k', ?_, inv⟩
    rw [intrTimerHandler, if_pos up]
    exact ran
  · refine ⟨_, by rw [intrTimerHandler, if_neg up]; rfl, ?_⟩
    exact saved.setTask rfl

/-- A new task is ready at the end of the list. -/
theorem Lists.start (h : Lists k) (prio : Nat) (fresh : t ∉ k.allList) (notMain : t ≠ k.mainThread) :
    ∃ k', threadStart k t prio = .ok k' ∧ Lists k' ∧ k'.allList = k.allList ++ [t] ∧ k'.running = k.running ∧
      ∀ u ∈ k.allList, (k'.tasks u).status = (k.tasks u).status := by
  have absent : t ∉ k.readyList := fun mem => fresh ((h.ready_iff t).1 mem).1
  have others : ∀ u ∈ k.allList, u ≠ t := fun u mem eq => fresh (eq ▸ mem)
  have ran : threadStart k t prio = .ok { initThread k t prio with
      readyList := k.readyList ++ [t], allList := k.allList ++ [t] } := by
    have notReady : t ∉ (initThread k t prio).readyList := absent
    have notListed : t ∉ (initThread k t prio).allList := fresh
    rw [threadStart, assertThat_of notReady, assertThat_of notListed]
    rfl
  refine ⟨_, ran, ?_, rfl, rfl, ?_⟩
  · constructor
    · exact List.nodup_append.2 ⟨h.allNodup, List.nodup_singleton t, by simpa using others⟩
    · refine List.nodup_append.2 ⟨h.readyNodup, List.nodup_singleton t, ?_⟩
      simpa using fun u mem => others u ((h.ready_iff u).1 mem).1
    · intro u
      by_cases eq : u = t
      · subst eq
        simp [initThread, notMain]
      · simpa [initThread, eq] using h.ready_iff u
    · exact h.waitersNodup
    · intro psema u mem
      have waits := h.waits psema u mem
      simpa [initThread, others u waits.1, waits.1] using waits.2
    · exact h.waitsOnce
    · exact List.mem_append_left _ h.idleAlive
    · intro u mem
      by_cases eq : u = t
      · subst eq
        simp [initThread, notMain]
      · simp only [List.mem_append, List.mem_singleton, eq, or_false] at mem
        simpa [initThread, eq] using h.alive u mem
  · intro u mem
    simp [initThread, others u mem]

theorem Inv.start {prio : Nat} (h : Inv k) (fresh : t ∉ k.allList) (notMain : t ≠ k.mainThread) :
    ∃ k', threadStart k t prio = .ok k' ∧ Inv k' := by
  obtain ⟨k', ran, lists, all, running, status⟩ := h.toLists.start prio fresh notMain
  refine ⟨k', ran, lists, ?_, ?_, ?_⟩
  · intro u mem run
    rw [all, List.mem_append, List.mem_singleton] at mem
    rcases mem with mem | rfl
    · rw [status u mem] at run
      rw [running]
      exact h.only u mem run
    · have ready : (k'.tasks u).status = .ready := by
        simp only [threadStart, bind_ok, assertThat_ok, pure_ok, exists_const] at ran
        obtain ⟨-, -, rfl⟩ := ran
        simp [initThread, notMain]
      rw [ready] at run
      cases run
  · rw [all, running]
    exact List.mem_append_left _ h.alive_running
  · rw [running, status _ h.alive_running]
    exact h.status_running

/-- A task in no list is taken out of the list of all tasks. -/
theorem Lists.bury (h : Lists k) (absent : t ∉ k.readyList) (free : ∀ psema, t ∉ (k.semas psema).waiters)
    (notIdle : t ≠ k.idleThread) :
    Lists { k.setStatus t .died with intr := false, allList := k.allList.erase t } := by
  have mem_erase : ∀ u, u ∈ k.allList.erase t ↔ u ≠ t ∧ u ∈ k.allList := fun u => h.allNodup.mem_erase_iff
  constructor
  · exact h.allNodup.erase t
  · exact h.readyNodup
  · intro u
    by_cases eq : u = t
    · subst eq
      simpa [mem_erase, Kernel.setStatus] using absent
    · simpa [mem_erase, Kernel.setStatus, eq] using h.ready_iff u
  · exact h.waitersNodup
  · intro psema u mem
    have ne : u ≠ t := fun eq => free psema (eq ▸ mem)
    simpa [mem_erase, Kernel.setStatus, ne] using h.waits psema u mem
  · exact h.waitsOnce
  · exact (mem_erase _).2 ⟨notIdle.symm, h.idleAlive⟩
  · intro u mem
    obtain ⟨ne, mem⟩ := (mem_erase u).1 mem
    simpa [Kernel.setStatus, ne] using h.alive u mem

/-- `thread_exit` of a task that is not ready. -/
theorem threadExit_absent {needSchedule : Bool} (absent : t ∉ k.readyList) :
    threadExit k t needSchedule =
      if needSchedule then schedule { k.setStatus t .died with intr := false, allList := k.allList.erase t }
      else return { k.setStatus t .died with intr := false, allList := k.allList.erase t } := by
  have absent' : t ∉ { k.setStatus t .died with intr := false }.readyList := absent
  rw [threadExit, if_neg absent']
  rfl

theorem Inv.exit (h : Inv k) (notIdle : k.running ≠ k.idleThread) :
    ∃ k', threadExit k k.running true = .ok k' ∧ Inv k' := by
  obtain ⟨absent, free⟩ := h.toLists.running_free h.status_running
  have leaving : Leaving { k.setStatus k.running .died with intr := false, allList := k.allList.erase k.running } := by
    refine ⟨h.toLists.bury absent free notIdle, ?_, ?_⟩
    · intro u mem run
      obtain ⟨ne, mem⟩ := h.allNodup.mem_erase_iff.1 mem
      simp only [Kernel.setStatus, Function.update_of_ne ne] at run
      exact h.only u mem run
    · intro run
      simp [Kernel.setStatus] at run
  rw [threadExit_absent absent]
  exact leaving.schedule rfl

theorem Inv.reap (h : Inv k) (hanging : (k.tasks t).status = .hanging) (notIdle : t ≠ k.idleThread) :
    ∃ k', threadExit k t false = .ok k' ∧ Inv k' := by
  have absent : t ∉ k.readyList := by
    intro mem
    have ready := ((h.ready_iff t).1 mem).2
    rw [hanging] at ready
    cases ready
  have free : ∀ psema, t ∉ (k.semas psema).waiters := by
    intro psema mem
    have blocked := (h.waits psema t mem).2.1
    rw [hanging] at blocked
    cases blocked
  have ne : k.running ≠ t := by
    intro eq
    have run := h.status_running
    rw [eq, hanging] at run
    cases run
  refine ⟨_, by rw [threadExit_absent absent]; rfl, h.toLists.bury absent free notIdle, ?_, ?_, ?_⟩
  · intro u mem run
    obtain ⟨ne', mem⟩ := h.allNodup.mem_erase_iff.1 mem
    simp only [Kernel.setStatus, Function.update_of_ne ne'] at run
    exact h.only u mem run
  · exact h.allNodup.mem_erase_iff.2 ⟨ne, h.alive_running⟩
  · simpa [Kernel.setStatus, ne] using h.status_running

/-- A task that is blocked and in no list joins the waiters of a semaphore. -/
theorem Lists.wait (h : Lists k) (live : t ∈ k.allList) (blocked : (k.tasks t).status = .blocked)
    (free : ∀ psema, t ∉ (k.semas psema).waiters) (notIdle : t ≠ k.idleThread) :
    Lists (k.setSema psema { k.semas psema with waiters := (k.semas psema).waiters ++ [t] }) := by
  have joined : ∀ p u, u ∈ ((k.setSema psema { k.semas psema with
      waiters := (k.semas psema).waiters ++ [t] }).semas p).waiters ↔
      u ∈ (k.semas p).waiters ∨ (p = psema ∧ u = t) := by
    intro p u
    by_cases eq : p = psema
    · subst eq
      simp [Kernel.setSema]
    · simp [Kernel.setSema, eq]
  constructor
  · exact h.allNodup
  · exact h.readyNodup
  · exact h.ready_iff
  · intro p
    by_cases eq : p = psema
    · subst eq
      simp only [Kernel.setSema, Function.update_self]
      refine List.nodup_append.2 ⟨h.waitersNodup p, List.nodup_singleton t, ?_⟩
      simpa using fun u mem (eq : u = t) => free p (eq ▸ mem)
    · simpa [Kernel.setSema, eq] using h.waitersNodup p
  · intro p u mem
    rcases (joined p u).1 mem with mem | ⟨-, rfl⟩
    · exact h.waits p u mem
    · exact ⟨live, blocked, notIdle⟩
  · intro p p' u mem mem'
    rcases (joined p u).1 mem with old | ⟨rfl, rfl⟩ <;> rcases (joined p' _).1 mem' with old' | ⟨rfl, eq⟩
    · exact h.waitsOnce p p' u old old'
    · subst eq
      exact absurd old (free p)
    · exact absurd old' (free p')
    · rfl
  · exact h.idleAlive
  · exact h.alive

theorem Inv.down (h : Inv k) (notIdle : k.running ≠ k.idleThread) (binary : (k.semas psema).value ≤ 1) :
    ∃ k', semaDown k psema = .ok k' ∧ Inv k' := by
  by_cases zero : (k.semas psema).value = 0
  · have free := (h.toLists.running_free h.status_running).2
    have off : Inv { k with intr := false } := h.congr
      (h.toLists.congr rfl rfl rfl (fun _ => rfl) fun _ _ => rfl) rfl rfl fun _ => rfl
    have asleep : Leaving ({ k with intr := false }.saveIntr.setStatus k.running .blocked) :=
      off.saveIntr.sleep (.inl rfl)
    have leaving : Leaving (({ k with intr := false }.saveIntr.setStatus k.running .blocked).setSema psema
        { k.semas psema with waiters := (k.semas psema).waiters ++ [k.running] }) := by
      refine ⟨asleep.toLists.wait h.alive_running ?_ free notIdle, asleep.only, asleep.stays⟩
      simp [Kernel.setStatus, Kernel.saveIntr]
    obtain ⟨k', ran, inv⟩ := leaving.schedule rfl
    refine ⟨k', ?_, inv⟩
    rw [semaDown, if_pos zero, assertThat_of (free psema)]
    exact ran
  · have one : (k.semas psema).value - 1 = 0 := by omega
    refine ⟨_, by rw [semaDown, if_neg zero, assertThat_of one]; rfl, ?_⟩
    exact h.setSema (List.Sublist.refl _)

theorem Inv.wakeWaiter (h : Inv k) (psema : Nat) : ∃ k', wakeWaiter k psema = .ok k' ∧ Inv k' ∧
    (k'.semas psema).value = (k.semas psema).value := by
  cases waiters : (k.semas psema).waiters with
  | nil =>
    refine ⟨k, ?_, h, rfl⟩
    rw [Sched.wakeWaiter, waiters]
    rfl
  | cons t rest =>
    have mem : t ∈ (k.semas psema).waiters := by rw [waiters]; exact List.mem_cons_self
    have popped : Inv (k.setSema psema { k.semas psema with waiters := rest }) :=
      h.setSema (by rw [waiters]; exact List.sublist_cons_self t rest)
    obtain ⟨live, blocked, -⟩ := h.waits psema t mem
    have free : ∀ p, t ∉ ((k.setSema psema { k.semas psema with waiters := rest }).semas p).waiters := by
      intro p
      by_cases eq : p = psema
      · subst eq
        have nodup := h.waitersNodup p
        rw [waiters, List.nodup_cons] at nodup
        simpa [Kernel.setSema] using nodup.1
      · simp only [Kernel.setSema, Function.update_of_ne eq]
        exact fun mem' => eq (h.waitsOnce p psema t mem' mem)
    obtain ⟨ran, inv⟩ := popped.unblock live (.inl blocked) free
    refine ⟨_, ?_, inv, by simp [Kernel.woken, Kernel.setStatus, Kernel.setSema]⟩
    rw [Sched.wakeWaiter, waiters]
    exact ran

theorem Inv.up (h : Inv k) (zero : (k.semas psema).value = 0) : ∃ k', semaUp k psema = .ok k' ∧ Inv k' := by
  obtain ⟨k1, woken, inv, value⟩ := h.wakeWaiter psema
  have one : ((k1.semas psema).value + 1) % 256 = 1 := by omega
  have ran : semaUp k psema = .ok (k1.setSema psema { k1.semas psema with
      value := ((k1.semas psema).value + 1) % 256 }) := by
    simp only [semaUp, assertThat_of zero, ok_bind, woken, assertThat_of one]
    rfl
  refine ⟨_, ran, ?_⟩
  exact inv.setSema (List.Sublist.refl _)

end Operations

section Runs

variable {k : Kernel}

/-- `main` runs and `init` and the idle task are ready. -/
theorem inv_of_three {init : Nat} (pages : [init, k.running, k.idleThread].Nodup)
    (all : k.allList = [init, k.running, k.idleThread]) (ready : k.readyList = [init, k.idleThread])
    (free : ∀ psema, (k.semas psema).waiters = []) (first : (k.tasks init).status = .ready)
    (idle : (k.tasks k.idleThread).status = .ready) (main : (k.tasks k.running).status = .running) : Inv k := by
  simp only [List.nodup_cons, List.mem_cons, List.not_mem_nil, not_or, or_false] at pages
  obtain ⟨⟨initMain, initIdle⟩, mainIdle, -⟩ := pages
  have cases : ∀ t ∈ k.allList, t = init ∨ t = k.running ∨ t = k.idleThread := by
    intro t mem
    rw [all] at mem
    simpa using mem
  refine ⟨⟨?_, ?_, ?_, ?_, ?_, ?_, ?_, ?_⟩, ?_, ?_, main⟩
  · simp [all, initMain, initIdle, mainIdle]
  · simp [ready, initIdle]
  · intro t
    constructor
    · intro mem
      rw [ready] at mem
      simp only [List.mem_cons, List.not_mem_nil, or_false] at mem
      rcases mem with rfl | rfl
      · exact ⟨by simp [all], first⟩
      · exact ⟨by simp [all], idle⟩
    · rintro ⟨mem, status⟩
      rw [ready]
      rcases cases t mem with rfl | rfl | rfl
      · simp
      · rw [main] at status
        cases status
      · simp
  · intro psema
    rw [free]
    exact List.nodup_nil
  · intro psema t mem
    rw [free] at mem
    cases mem
  · intro psema psema' t mem
    rw [free] at mem
    cases mem
  · simp [all]
  · intro t mem
    rcases cases t mem with rfl | rfl | rfl
    · simp [first]
    · simp [main]
    · simp [idle]
  · intro t mem run
    rcases cases t mem with rfl | rfl | rfl
    · rw [first] at run
      cases run
    · rfl
    · rw [idle] at run
      cases run
  · simp [all]

theorem threadInit_inv {mem : Nat → Task} {values : Nat → Nat} {init main idle : Nat}
    (pages : [0, init, main, idle].Nodup) (start : threadInit mem values init main idle = .ok k) : Inv k := by
  obtain ⟨zero, rest⟩ := List.nodup_cons.1 pages
  simp only [threadInit, threadStart, makeMainThread, bind_ok, assertThat_ok, pure_ok, exists_const] at start
  obtain ⟨k1, ⟨-, -, rfl⟩, k2, ⟨-, rfl⟩, k3, ⟨-, -, rfl⟩, rfl⟩ := start
  have init0 : init ≠ 0 := by
    intro eq
    simp [eq] at zero
  simp only [List.nodup_cons, List.mem_cons, List.not_mem_nil, not_or, or_false] at rest
  obtain ⟨⟨initMain, initIdle⟩, mainIdle, -⟩ := rest
  refine inv_of_three (List.nodup_cons.1 pages).2 rfl rfl (fun _ => rfl) ?_ ?_ ?_
  · simp [initThread, initMain, initIdle, init0]
  · simp [initThread, Ne.symm mainIdle]
  · simp [initThread, mainIdle]

/-- One operation. It keeps the invariant, and the only assertions that can fail are the
semaphore's own. -/
theorem act_step {op : Op} (h : Inv k) (allowed : Allowed k op) :
    (¬ Overrun k op → ∃ k', act k op = .ok k' ∧ Inv k') ∧ (Overrun k op → act k op = .error .assert) := by
  cases op with
  | timer => exact ⟨fun _ => h.timer, False.elim⟩
  | block stat => exact ⟨fun _ => h.block allowed, False.elim⟩
  | unblock pthread =>
    obtain ⟨ran, inv⟩ := h.unblock allowed.1 allowed.2.1 allowed.2.2
    exact ⟨fun _ => ⟨_, ran, inv⟩, False.elim⟩
  | yield => exact ⟨fun _ => h.yield, False.elim⟩
  | start page prio => exact ⟨fun _ => h.start allowed.1 allowed.2, False.elim⟩
  | exit => exact ⟨fun _ => h.exit allowed, False.elim⟩
  | reap threadOver => exact ⟨fun _ => h.reap allowed.2.1 allowed.2.2, False.elim⟩
  | init psema value =>
    refine ⟨fun _ => ⟨_, rfl, ?_⟩, False.elim⟩
    exact h.setSema (List.nil_sublist _)
  | down psema =>
    refine ⟨fun binary => h.down allowed (Nat.le_of_not_lt binary), ?_⟩
    intro beyond
    have beyond : 1 < (k.semas psema).value := beyond
    have notZero : (k.semas psema).value ≠ 0 := by omega
    have notOne : ¬ (k.semas psema).value - 1 = 0 := by omega
    show semaDown k psema = .error .assert
    rw [semaDown, if_neg notZero, assertThat, if_neg notOne]
    rfl
  | up psema =>
    refine ⟨fun zero => h.up (not_not.1 zero), ?_⟩
    intro beyond
    have beyond : ¬ (k.semas psema).value = 0 := beyond
    show semaUp k psema = .error .assert
    rw [semaUp, assertThat, if_neg beyond]
    rfl
  | intr on =>
    refine ⟨fun _ => ⟨_, rfl, ?_⟩, False.elim⟩
    exact h.congr (h.toLists.congr rfl rfl rfl (fun _ => rfl) fun _ _ => rfl) rfl rfl fun _ => rfl

theorem Reachable.inv (h : Reachable k) : Inv k := by
  induction h with
  | init pages start => exact threadInit_inv pages start
  | @step k k' op _ allowed ran ih =>
    obtain ⟨keeps, fails⟩ := act_step ih allowed
    by_cases beyond : Overrun k op
    · rw [fails beyond] at ran
      cases ran
    · obtain ⟨k1, ran1, inv⟩ := keeps beyond
      rw [ran1] at ran
      cases ran
      exact inv

/-- In every reachable state exactly one task runs and it is in no list, the ready list has
exactly the ready tasks and each once, a task is in at most one list and there once, and
every operation returns unless the semaphore it is called on is not in order. -/
theorem one_task_runs (h : Reachable k) :
    (∃ t, (t ∈ k.allList ∧ (k.tasks t).status = .running) ∧
      (∀ u, u ∈ k.allList → (k.tasks u).status = .running → u = t) ∧
      t ∉ k.readyList ∧ ∀ psema, t ∉ (k.semas psema).waiters) ∧
    k.readyList.Nodup ∧
    (∀ t, t ∈ k.readyList ↔ t ∈ k.allList ∧ (k.tasks t).status = .ready) ∧
    (∀ psema, (k.semas psema).waiters.Nodup) ∧
    (∀ psema t, t ∈ (k.semas psema).waiters →
      t ∉ k.readyList ∧ ∀ psema', t ∈ (k.semas psema').waiters → psema' = psema) ∧
    ∀ op, Allowed k op → ¬ Overrun k op → ∃ k', act k op = .ok k' := by
  have inv := h.inv
  obtain ⟨absent, free⟩ := inv.toLists.running_free inv.status_running
  refine ⟨⟨k.running, ⟨inv.alive_running, inv.status_running⟩, inv.only, absent, free⟩, inv.readyNodup, inv.ready_iff,
    inv.waitersNodup, ?_, ?_⟩
  · intro psema t mem
    exact ⟨inv.toLists.not_ready mem, fun psema' mem' => inv.waitsOnce psema' psema t mem' mem⟩
  · intro op allowed binary
    obtain ⟨k', ran, -⟩ := (act_step inv allowed).1 binary
    exact ⟨k', ran⟩

/-- `main` and `init` sleep, and the idle task blocks with no task ready. -/
theorem one_task_runs_idle : ∃ k, Reachable k ∧ k.running = 3 ∧ k.idleThread = 3 ∧ k.readyList = [] ∧
    ∃ k', act k (.block .blocked) = .ok k' := by
  have booted : Reachable _ :=
    @Reachable.init (fun _ => ⟨.died, 0, 0, 0, false⟩) (fun _ => 1) 1 2 3 _ (by decide) rfl
  have one : Reachable _ := @Reachable.step _ _ (.block .blocked) booted (.inl rfl) rfl
  have two : Reachable _ := @Reachable.step _ _ (.block .waiting) one (.inr (.inl rfl)) rfl
  exact ⟨_, two, rfl, rfl, rfl, (one_task_runs two).2.2.2.2.2 (.block .blocked) (.inl rfl) id⟩

end Runs

end Sched

end Sparrow
