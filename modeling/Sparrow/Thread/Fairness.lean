import Mathlib.Algebra.Order.BigOperators.Group.Finset
import Mathlib.Data.List.Count
import Sparrow.Thread.Sched

/-!
# No ready task starves

A ready task loses no place to a task behind it: what is woken goes to the front of the ready
list, and it was alive before, and what has used up its time, gives way or is new goes to the
end. So the time left to the tasks that are not behind it is a bound on the timer interrupts
it can still wait for, whatever the others do.
-/

namespace Sparrow
namespace Sched
set_option autoImplicit false

/-- `t` and the tasks behind it in the ready list. -/
def Kernel.tail (k : Kernel) (t : Nat) : List Nat := k.readyList.dropWhile (· ≠ t)

/-- The live tasks that can run before `t` does. -/
def Kernel.ahead (k : Kernel) (t : Nat) : Finset Nat := (k.allList.filter (· ∉ k.tail t)).toFinset

/-- The timer interrupts they can take. -/
def Kernel.budget (k : Kernel) (t : Nat) : Nat := ∑ u ∈ k.ahead t, ((k.tasks u).ticks + 1)

/-- Operations one after another. -/
inductive Runs : Kernel → List Op → Kernel → Prop where
  | nil (k : Kernel) : Runs k [] k
  | cons {k k1 k2 : Kernel} {op : Op} {ops : List Op} (allowed : Allowed k op) (ran : act k op = .ok k1)
    (rest : Runs k1 ops k2) : Runs k (op :: ops) k2

/-- The time of a live task is at most its priority. -/
def Quanta (k : Kernel) : Prop := ∀ u ∈ k.allList, (k.tasks u).ticks ≤ (k.tasks u).priority ∧ (k.tasks u).priority < 256

/-- `t` keeps its place from `k` to `k'`: nothing behind it gets ahead, what is new is behind
it, and nothing ahead gets more time. -/
structure KeepsPlace (t : Nat) (k k' : Kernel) : Prop where
  ready : t ∈ k'.readyList
  behind : ∀ u ∈ k.tail t, u ∈ k'.tail t
  live : ∀ u ∈ k'.allList, u ∉ k'.tail t → u ∈ k.allList
  time : ∀ u, u ∉ k'.tail t → (k'.tasks u).ticks ≤ (k.tasks u).ticks

section Place

variable {k k' : Kernel} {t u : Nat}

theorem mem_ahead : u ∈ k.ahead t ↔ u ∈ k.allList ∧ u ∉ k.tail t := by
  simp [Kernel.ahead]

theorem tail_subset (mem : u ∈ k.tail t) : u ∈ k.readyList :=
  (List.dropWhile_sublist _).subset mem

theorem dropWhile_append_of_mem {l : List Nat} (mem : t ∈ l) (more : List Nat) :
    (l ++ more).dropWhile (· ≠ t) = l.dropWhile (· ≠ t) ++ more := by
  induction l with
  | nil => cases mem
  | cons v l ih =>
    by_cases eq : v = t
    · simp [eq]
    · have mem : t ∈ l := (List.mem_cons.1 mem).resolve_left (Ne.symm eq)
      simpa [eq] using ih mem

theorem KeepsPlace.refl (ready : t ∈ k.readyList) : KeepsPlace t k k :=
  ⟨ready, fun _ mem => mem, fun _ mem _ => mem, fun _ _ => le_rfl⟩

theorem KeepsPlace.trans {k1 : Kernel} (first : KeepsPlace t k k1) (second : KeepsPlace t k1 k') :
    KeepsPlace t k k' := by
  refine ⟨second.ready, fun u mem => second.behind u (first.behind u mem), ?_, ?_⟩
  · intro u mem out
    have out1 : u ∉ k1.tail t := fun mem1 => out (second.behind u mem1)
    exact first.live u (second.live u mem out) out1
  · intro u out
    have out1 : u ∉ k1.tail t := fun mem1 => out (second.behind u mem1)
    exact (second.time u out).trans (first.time u out1)

/-- The ready list stays, and no time is given. -/
theorem KeepsPlace.of_same (ready : t ∈ k.readyList) (list : k'.readyList = k.readyList)
    (all : ∀ u ∈ k'.allList, u ∈ k.allList) (time : ∀ u, (k'.tasks u).ticks ≤ (k.tasks u).ticks) :
    KeepsPlace t k k' := by
  refine ⟨list ▸ ready, ?_, fun u mem _ => all u mem, fun u _ => time u⟩
  intro u mem
  rw [Kernel.tail, list]
  exact mem

/-- Tasks join the end of the ready list. -/
theorem KeepsPlace.of_append {more : List Nat} (ready : t ∈ k.readyList) (list : k'.readyList = k.readyList ++ more)
    (all : ∀ u ∈ k'.allList, u ∈ k.allList ∨ u ∈ more)
    (time : ∀ u, u ∉ more → (k'.tasks u).ticks ≤ (k.tasks u).ticks) :
    KeepsPlace t k k' ∧ ∀ u ∈ more, u ∈ k'.tail t := by
  have tail : k'.tail t = k.tail t ++ more := by
    rw [Kernel.tail, list]
    exact dropWhile_append_of_mem ready more
  refine ⟨⟨?_, ?_, ?_, ?_⟩, ?_⟩
  · rw [list]
    exact List.mem_append_left _ ready
  · intro u mem
    rw [tail]
    exact List.mem_append_left _ mem
  · intro u mem out
    rw [tail, List.mem_append, not_or] at out
    exact (all u mem).resolve_right out.2
  · intro u out
    rw [tail, List.mem_append, not_or] at out
    exact time u out.2
  · intro u mem
    rw [tail]
    exact List.mem_append_right _ mem

/-- Another task comes to the front of the ready list, or leaves it there. -/
theorem tail_cons (ne : u ≠ t) (list : k'.readyList = u :: k.readyList) : k'.tail t = k.tail t := by
  rw [Kernel.tail, list, List.dropWhile_cons_of_pos (by simpa using ne)]
  rfl

theorem KeepsPlace.budget_le (h : KeepsPlace t k k') : k'.budget t ≤ k.budget t := by
  have sub : k'.ahead t ⊆ k.ahead t := by
    intro u mem
    obtain ⟨live, out⟩ := mem_ahead.1 mem
    exact mem_ahead.2 ⟨h.live u live out, fun mem => out (h.behind u mem)⟩
  calc k'.budget t ≤ ∑ u ∈ k'.ahead t, ((k.tasks u).ticks + 1) := by
        refine Finset.sum_le_sum fun u mem => ?_
        have time := h.time u (mem_ahead.1 mem).2
        omega
    _ ≤ k.budget t := Finset.sum_le_sum_of_subset sub

/-- A task ahead of `t` gets behind it, or loses time. -/
theorem KeepsPlace.budget_lt (h : KeepsPlace t k k') (mem : u ∈ k.ahead t)
    (spent : u ∈ k'.tail t ∨ (k'.tasks u).ticks < (k.tasks u).ticks) : k'.budget t < k.budget t := by
  have sub : ∀ v ∈ k'.ahead t, v ∈ k.ahead t := by
    intro v mem
    obtain ⟨live, out⟩ := mem_ahead.1 mem
    exact mem_ahead.2 ⟨h.live v live out, fun mem => out (h.behind v mem)⟩
  by_cases stays : u ∈ k'.ahead t
  · have less : (k'.tasks u).ticks < (k.tasks u).ticks := spent.resolve_left (mem_ahead.1 stays).2
    calc k'.budget t < ∑ v ∈ k'.ahead t, ((k.tasks v).ticks + 1) := by
          refine Finset.sum_lt_sum (fun v mem => ?_) ⟨u, stays, by omega⟩
          have time := h.time v (mem_ahead.1 mem).2
          omega
      _ ≤ k.budget t := Finset.sum_le_sum_of_subset sub
  · calc k'.budget t ≤ ∑ v ∈ k'.ahead t, ((k.tasks v).ticks + 1) := by
          refine Finset.sum_le_sum fun v mem => ?_
          have time := h.time v (mem_ahead.1 mem).2
          omega
      _ < k.budget t := by
          refine Finset.sum_lt_sum_of_subset sub mem stays (by omega) fun _ _ _ => ?_
          omega

/-- The running task is ahead of every ready one. -/
theorem Inv.running_ahead (h : Inv k) : k.running ∈ k.ahead t := by
  refine mem_ahead.2 ⟨h.alive_running, fun mem => ?_⟩
  exact (h.toLists.running_free h.status_running).1 (tail_subset mem)

theorem Inv.budget_pos (h : Inv k) : 0 < k.budget t := by
  have one : (k.tasks k.running).ticks + 1 ≤ ∑ u ∈ k.ahead t, ((k.tasks u).ticks + 1) :=
    Finset.single_le_sum (fun u _ => Nat.zero_le ((k.tasks u).ticks + 1)) h.running_ahead
  exact (Nat.succ_pos _).trans_le one

end Place

section Operations

variable {k k' : Kernel} {t : Nat}

theorem requeue_keeps (ready : t ∈ k.readyList) (ran : requeue k = .ok k') :
    KeepsPlace t k k' ∧ ((k.tasks k.running).status = .running → k.running ∈ k'.tail t) := by
  by_cases status : (k.tasks k.running).status = .running
  · simp only [requeue, if_pos status, bind_ok, assertThat_ok, pure_ok, exists_const] at ran
    obtain ⟨-, rfl⟩ := ran
    obtain ⟨keeps, last⟩ := @KeepsPlace.of_append k { k with
      readyList := k.readyList ++ [k.running]
      tasks := Function.update k.tasks k.running
        { k.tasks k.running with ticks := (k.tasks k.running).priority, status := .ready } } t [k.running]
      ready rfl (fun u mem => .inl mem) (by simp +contextual)
    exact ⟨keeps, fun _ => last _ (List.mem_singleton_self _)⟩
  · simp only [requeue, if_neg status, pure_ok] at ran
    subst ran
    exact ⟨.refl ready, fun run => absurd run status⟩

/-- The first of the ready list gets the processor. -/
theorem dispatch_keeps (ready : t ∈ k.readyList) (ran : dispatch k = .ok k') :
    k'.running = t ∨ KeepsPlace t k k' ∧ k'.tail t = k.tail t := by
  obtain ⟨next, rest, list⟩ := List.exists_cons_of_ne_nil (List.ne_nil_of_mem ready)
  simp only [dispatch, list, pure_ok] at ran
  subst ran
  by_cases eq : next = t
  · exact .inl eq
  · right
    have tail : (switchTo { k.setStatus next .running with readyList := rest } next).tail t = k.tail t :=
      (tail_cons eq list).symm
    refine ⟨⟨?_, ?_, fun u mem _ => mem, fun u _ => ?_⟩, tail⟩
    · rw [list] at ready
      exact (List.mem_cons.1 ready).resolve_left (Ne.symm eq)
    · intro u mem
      rw [tail]
      exact mem
    · by_cases eq : u = next
      · subst eq
        simp [switchTo, Kernel.setStatus]
      · simp [switchTo, Kernel.setStatus, eq]

theorem schedule_keeps (ready : t ∈ k.readyList) (ran : schedule k = .ok k') : k'.running = t ∨
    KeepsPlace t k k' ∧ ((k.tasks k.running).status = .running → k.running ∈ k'.tail t) := by
  simp only [schedule, bind_ok, assertThat_ok, exists_const] at ran
  obtain ⟨-, k1, requeued, k2, woken, chosen⟩ := ran
  obtain ⟨first, last⟩ := requeue_keeps ready requeued
  have ready1 := first.ready
  rw [wakeIdle, if_neg (List.ne_nil_of_mem ready1), pure_ok] at woken
  subst woken
  rcases dispatch_keeps ready1 chosen with runs | ⟨second, tail⟩
  · exact .inl runs
  · refine .inr ⟨first.trans second, fun run => ?_⟩
    rw [tail]
    exact last run

/-- A task that is not ready is woken and gets to the front. -/
theorem threadUnblock_keeps {pthread : Nat} (ready : t ∈ k.readyList) (status : (k.tasks t).status = .ready)
    (ran : threadUnblock k pthread = .ok k') (live : pthread ∈ k.allList) : KeepsPlace t k k' := by
  simp only [threadUnblock, bind_ok, assertThat_ok, exists_const] at ran
  obtain ⟨sleeps, ran⟩ := ran
  have ne : pthread ≠ t := by
    rintro rfl
    rw [status] at sleeps
    rcases sleeps with s | s | s <;> cases s
  have notReady : (k.tasks pthread).status ≠ .ready := by
    rcases sleeps with s | s | s <;> simp [s]
  simp only [if_pos notReady, bind_ok, assertThat_ok, pure_ok, exists_const] at ran
  obtain ⟨-, rfl⟩ := ran
  have tail : (k.woken pthread).tail t = k.tail t := tail_cons ne rfl
  show KeepsPlace t k (k.woken pthread)
  refine ⟨List.mem_cons_of_mem _ ready, ?_, fun u mem _ => mem, fun u _ => ?_⟩
  · intro u mem
    rw [tail]
    exact mem
  · by_cases eq : u = pthread
    · subst eq
      simp [Kernel.woken, Kernel.setStatus]
    · simp [Kernel.woken, Kernel.setStatus, eq]

/-- The flag of the processor, a semaphore or the saved flag of a task changes. -/
theorem KeepsPlace.of_tasks {tasks : Nat → Task} {semas : Nat → Semaphore} {intr : Bool} (ready : t ∈ k.readyList)
    (time : ∀ u, (tasks u).ticks ≤ (k.tasks u).ticks) :
    KeepsPlace t k { k with tasks := tasks, semas := semas, intr := intr } :=
  .of_same ready rfl (fun _ mem => mem) time

theorem saveIntr_ticks (u : Nat) : (k.saveIntr.tasks u).ticks = (k.tasks u).ticks := by
  by_cases eq : u = k.running
  · subst eq
    simp [Kernel.saveIntr]
  · simp [Kernel.saveIntr, eq]

theorem setStatus_ticks (stat : TaskStatus) (u v : Nat) : ((k.setStatus v stat).tasks u).ticks = (k.tasks u).ticks := by
  by_cases eq : u = v
  · subst eq
    simp [Kernel.setStatus]
  · simp [Kernel.setStatus, eq]

theorem threadBlock_keeps {stat : TaskStatus} (ready : t ∈ k.readyList) (ran : threadBlock k stat = .ok k') :
    k'.running = t ∨ KeepsPlace t k k' := by
  simp only [threadBlock, bind_ok, assertThat_ok, exists_const] at ran
  obtain ⟨-, ran⟩ := ran
  obtain here | ⟨keeps, -⟩ := schedule_keeps (k := k.saveIntr.setStatus k.running stat) ready ran
  · exact .inl here
  refine .inr (.trans (.of_tasks ready fun u => ?_) keeps)
  exact (setStatus_ticks stat u k.running).trans_le (saveIntr_ticks u).le

theorem threadYield_keeps (ready : t ∈ k.readyList) (ran : threadYield k = .ok k') :
    k'.running = t ∨ KeepsPlace t k k' := by
  simp only [threadYield, bind_ok, assertThat_ok, exists_const] at ran
  obtain ⟨-, ran⟩ := ran
  have list : Kernel.readyList { k.saveIntr.setStatus k.running .ready with
      readyList := k.readyList ++ [k.running] } = k.readyList ++ [k.running] := rfl
  have time : ∀ u, ((k.saveIntr.setStatus k.running .ready).tasks u).ticks ≤ (k.tasks u).ticks :=
    fun u => (setStatus_ticks .ready u k.running).trans_le (saveIntr_ticks u).le
  have joined := (KeepsPlace.of_append ready list (fun u mem => .inl mem) fun u _ => time u).1
  obtain here | ⟨keeps, -⟩ := schedule_keeps joined.ready ran
  · exact .inl here
  · exact .inr (joined.trans keeps)

/-- A tick takes time from the running task, or its time is up and it goes to the end. -/
theorem intrTimerHandler_keeps (h : Inv k) (ready : t ∈ k.readyList) (ran : intrTimerHandler k = .ok k') :
    k'.running = t ∨ KeepsPlace t k k' ∧
      (k.running ∈ k'.tail t ∨ (k'.tasks k.running).ticks < (k.tasks k.running).ticks) := by
  have ticks := saveIntr_ticks (k := k) k.running
  by_cases up : (k.saveIntr.tasks k.running).ticks = 0
  · rw [intrTimerHandler, if_pos up] at ran
    rcases schedule_keeps (by exact ready) ran with runs | ⟨keeps, last⟩
    · exact .inl runs
    · right
      refine ⟨.trans (.of_tasks ready fun u => ?_) keeps, .inl (last ?_)⟩
      · by_cases eq : u = k.running
        · subst eq
          simpa using ticks.le
        · simp [eq, saveIntr_ticks]
      · simpa [Kernel.saveIntr] using h.status_running
  · rw [intrTimerHandler, if_neg up, pure_ok] at ran
    subst ran
    right
    refine ⟨.of_tasks ready fun u => ?_, .inr ?_⟩
    · by_cases eq : u = k.running
      · subst eq
        simp only [Function.update_self]
        omega
      · simp [eq, saveIntr_ticks]
    · simp only [Function.update_self]
      omega

theorem threadStart_keeps {page prio : Nat} (ready : t ∈ k.readyList) (ran : threadStart k page prio = .ok k') :
    KeepsPlace t k k' := by
  simp only [threadStart, bind_ok, assertThat_ok, pure_ok, exists_const] at ran
  obtain ⟨-, -, rfl⟩ := ran
  refine (@KeepsPlace.of_append k _ t [page] ready rfl (fun u mem => List.mem_append.1 mem) fun u new => ?_).1
  have ne : u ≠ page := fun eq => new (List.mem_singleton.2 eq)
  simp [initThread, ne]

theorem threadExit_keeps {threadOver : Nat} {needSchedule : Bool} (ready : t ∈ k.readyList)
    (absent : threadOver ∉ k.readyList) (ran : threadExit k threadOver needSchedule = .ok k') :
    k'.running = t ∨ KeepsPlace t k k' := by
  have buried : KeepsPlace t k { k.setStatus threadOver .died with
      intr := false, allList := k.allList.erase threadOver } := by
    refine .of_same ready rfl (fun u mem => List.mem_of_mem_erase mem) fun u => ?_
    exact (setStatus_ticks .died u threadOver).le
  rw [threadExit_absent absent] at ran
  by_cases need : needSchedule = true
  · rw [if_pos need] at ran
    exact (schedule_keeps buried.ready ran).imp_right fun ⟨keeps, _⟩ => buried.trans keeps
  · rw [if_neg need, pure_ok] at ran
    subst ran
    exact .inr buried

theorem semaDown_keeps {psema : Nat} (ready : t ∈ k.readyList) (ran : semaDown k psema = .ok k') :
    k'.running = t ∨ KeepsPlace t k k' := by
  simp only [semaDown] at ran
  by_cases zero : (k.semas psema).value = 0
  · simp only [if_pos zero, bind_ok, assertThat_ok, exists_const] at ran
    obtain ⟨-, ran⟩ := ran
    refine (threadBlock_keeps (by exact ready) ran).imp_right fun keeps => .trans ?_ keeps
    exact .of_tasks ready fun _ => le_rfl
  · simp only [if_neg zero, bind_ok, assertThat_ok, pure_ok, exists_const] at ran
    obtain ⟨-, rfl⟩ := ran
    exact .inr (.of_tasks ready fun _ => le_rfl)

theorem semaUp_keeps {psema : Nat} (h : Inv k) (ready : t ∈ k.readyList) (ran : semaUp k psema = .ok k') :
    KeepsPlace t k k' := by
  simp only [semaUp, bind_ok, assertThat_ok, pure_ok, exists_const] at ran
  obtain ⟨-, k1, woken, -, rfl⟩ := ran
  have first : KeepsPlace t k k1 := by
    cases waiters : (k.semas psema).waiters with
    | nil =>
      simp only [wakeWaiter, waiters, pure_ok] at woken
      exact woken ▸ .refl ready
    | cons waiter rest =>
      simp only [wakeWaiter, waiters] at woken
      have live := (h.waits psema waiter (by rw [waiters]; exact List.mem_cons_self)).1
      have popped : KeepsPlace t k (k.setSema psema { k.semas psema with waiters := rest }) :=
        .of_tasks ready fun _ => le_rfl
      exact popped.trans (threadUnblock_keeps ready ((h.ready_iff t).1 ready).2 woken live)
  exact first.trans (.of_tasks first.ready fun _ => le_rfl)

/-- Whatever the next operation is, a ready task gets the processor or keeps its place, and a
timer interrupt takes of the time it waits for. -/
theorem act_keeps {op : Op} (h : Inv k) (ready : t ∈ k.readyList) (allowed : Allowed k op)
    (ran : act k op = .ok k') : k'.running = t ∨
    t ∈ k'.readyList ∧ k'.budget t + [op].count .timer ≤ k.budget t := by
  have kept : ∀ other, op ≠ .timer → KeepsPlace t k other → t ∈ other.readyList ∧
      other.budget t + [op].count .timer ≤ k.budget t := by
    intro other ne keeps
    refine ⟨keeps.ready, ?_⟩
    simpa [ne] using keeps.budget_le
  cases op with
  | timer =>
    refine (intrTimerHandler_keeps h ready ran).imp_right fun ⟨keeps, spent⟩ => ⟨keeps.ready, ?_⟩
    exact keeps.budget_lt h.running_ahead spent
  | block stat => exact (threadBlock_keeps ready ran).imp_right (kept _ nofun)
  | unblock pthread =>
    exact .inr (kept _ nofun (threadUnblock_keeps ready ((h.ready_iff t).1 ready).2 ran allowed.1))
  | yield => exact (threadYield_keeps ready ran).imp_right (kept _ nofun)
  | start page prio => exact .inr (kept _ nofun (threadStart_keeps ready ran))
  | exit =>
    have absent := (h.toLists.running_free h.status_running).1
    have ran : threadExit k k.running true = .ok k' := ran
    exact (threadExit_keeps ready absent ran).imp_right (kept _ nofun)
  | reap threadOver =>
    have absent : threadOver ∉ k.readyList := by
      intro mem
      have status := ((h.ready_iff threadOver).1 mem).2
      rw [allowed.2.1] at status
      cases status
    have ran : threadExit k threadOver false = .ok k' := ran
    exact (threadExit_keeps ready absent ran).imp_right (kept _ nofun)
  | init psema value =>
    cases ran
    exact .inr (kept _ nofun (.of_tasks ready fun _ => le_rfl))
  | down psema => exact (semaDown_keeps ready ran).imp_right (kept _ nofun)
  | up psema => exact .inr (kept _ nofun (semaUp_keeps h ready ran))
  | intr on =>
    cases ran
    exact .inr (kept _ nofun (.of_tasks ready fun _ => le_rfl))

end Operations

/-- From `k` to `k'` no priority changes, and no task gets more time than its priority. -/
structure Charges (k k' : Kernel) : Prop where
  live : ∀ u ∈ k'.allList, u ∈ k.allList
  priority : ∀ u, (k'.tasks u).priority = (k.tasks u).priority
  time : ∀ u, (k'.tasks u).ticks ≤ max (k.tasks u).ticks (k.tasks u).priority

section Time

variable {k k' : Kernel}

theorem Charges.trans {k1 : Kernel} (first : Charges k k1) (second : Charges k1 k') : Charges k k' := by
  refine ⟨fun u mem => first.live u (second.live u mem), fun u => (second.priority u).trans (first.priority u), ?_⟩
  intro u
  have later := second.time u
  have sooner := first.time u
  rw [first.priority] at later
  omega

theorem Charges.quanta (h : Charges k k') (quanta : Quanta k) : Quanta k' := by
  intro u mem
  obtain ⟨time, small⟩ := quanta u (h.live u mem)
  have charged := h.time u
  rw [h.priority]
  omega

/-- One task changes. -/
theorem Charges.of_update {t running : Nat} {task : Task} {semas : Nat → Semaphore} {readyList allList : List Nat}
    {intr : Bool} (live : ∀ u ∈ allList, u ∈ k.allList) (priority : task.priority = (k.tasks t).priority)
    (time : task.ticks ≤ max (k.tasks t).ticks (k.tasks t).priority) :
    Charges k { k with
      tasks := Function.update k.tasks t task
      semas := semas
      running := running
      readyList := readyList
      allList := allList
      intr := intr } := by
  refine ⟨live, fun u => ?_, fun u => ?_⟩
  · by_cases eq : u = t
    · subst eq
      simpa using priority
    · simp [eq]
  · by_cases eq : u = t
    · subst eq
      simpa using time
    · simp [eq]

/-- The tasks stay as they are. -/
theorem Charges.of_same (live : ∀ u ∈ k'.allList, u ∈ k.allList) (tasks : k'.tasks = k.tasks) : Charges k k' := by
  refine ⟨live, fun u => by rw [tasks], fun u => ?_⟩
  rw [tasks]
  exact le_max_left _ _

theorem saveIntr_charges : Charges k k.saveIntr := .of_update (fun _ mem => mem) rfl (le_max_left _ _)

theorem setStatus_charges (t : Nat) (stat : TaskStatus) : Charges k (k.setStatus t stat) :=
  .of_update (fun _ mem => mem) rfl (le_max_left _ _)

theorem threadUnblock_charges {pthread : Nat} (ran : threadUnblock k pthread = .ok k') : Charges k k' := by
  simp only [threadUnblock, bind_ok, assertThat_ok, exists_const] at ran
  obtain ⟨-, ran⟩ := ran
  split at ran
  · simp only [bind_ok, assertThat_ok, pure_ok, exists_const] at ran
    obtain ⟨-, rfl⟩ := ran
    exact .of_update (fun _ mem => mem) rfl (le_max_left _ _)
  · cases ran
    exact .of_same (fun _ mem => mem) rfl

theorem schedule_charges (ran : schedule k = .ok k') : Charges k k' := by
  simp only [schedule, bind_ok, assertThat_ok, exists_const] at ran
  obtain ⟨-, k1, requeued, k2, woken, chosen⟩ := ran
  have first : Charges k k1 := by
    simp only [requeue] at requeued
    split at requeued
    · simp only [bind_ok, assertThat_ok, pure_ok, exists_const] at requeued
      obtain ⟨-, rfl⟩ := requeued
      exact .of_update (fun _ mem => mem) rfl (le_max_right _ _)
    · cases requeued
      exact .of_same (fun _ mem => mem) rfl
  have second : Charges k1 k2 := by
    rw [wakeIdle] at woken
    split at woken
    · exact threadUnblock_charges woken
    · cases woken
      exact .of_same (fun _ mem => mem) rfl
  have third : Charges k2 k' := by
    cases list : k2.readyList with
    | nil => simp [dispatch, list, throw_ok] at chosen
    | cons next rest =>
      simp only [dispatch, list, pure_ok] at chosen
      subst chosen
      exact .of_update (fun _ mem => mem) rfl (le_max_left _ _)
  exact (first.trans second).trans third

theorem threadBlock_charges {stat : TaskStatus} (ran : threadBlock k stat = .ok k') : Charges k k' := by
  simp only [threadBlock, bind_ok, assertThat_ok, exists_const] at ran
  exact (saveIntr_charges.trans (setStatus_charges _ stat)).trans (schedule_charges ran.2)

theorem threadYield_charges (ran : threadYield k = .ok k') : Charges k k' := by
  simp only [threadYield, bind_ok, assertThat_ok, exists_const] at ran
  have saved : Charges k (k.saveIntr.setStatus k.running .ready) := saveIntr_charges.trans (setStatus_charges _ _)
  refine .trans ?_ (schedule_charges ran.2)
  exact saved.trans (.of_same (fun _ mem => mem) rfl)

theorem intrTimerHandler_charges (ran : intrTimerHandler k = .ok k') : Charges k k' := by
  refine saveIntr_charges.trans ?_
  by_cases up : (k.saveIntr.tasks k.running).ticks = 0
  · rw [intrTimerHandler, if_pos up] at ran
    refine .trans ?_ (schedule_charges ran)
    exact .of_update (fun _ mem => mem) rfl (le_max_left _ _)
  · rw [intrTimerHandler, if_neg up, pure_ok] at ran
    subst ran
    refine .of_update (fun _ mem => mem) rfl ?_
    exact (Nat.sub_le _ _).trans (le_max_left _ _)

theorem threadExit_charges {threadOver : Nat} {needSchedule : Bool} (absent : threadOver ∉ k.readyList)
    (ran : threadExit k threadOver needSchedule = .ok k') : Charges k k' := by
  have buried : Charges k { k.setStatus threadOver .died with
      intr := false, allList := k.allList.erase threadOver } :=
    .of_update (fun _ mem => List.mem_of_mem_erase mem) rfl (le_max_left _ _)
  rw [threadExit_absent absent] at ran
  by_cases need : needSchedule = true
  · rw [if_pos need] at ran
    exact buried.trans (schedule_charges ran)
  · rw [if_neg need, pure_ok] at ran
    exact ran ▸ buried

theorem semaDown_charges {psema : Nat} (ran : semaDown k psema = .ok k') : Charges k k' := by
  simp only [semaDown] at ran
  split at ran
  · simp only [bind_ok, assertThat_ok, exists_const] at ran
    refine .trans ?_ (threadBlock_charges ran.2)
    exact .of_same (fun _ mem => mem) rfl
  · simp only [bind_ok, assertThat_ok, pure_ok, exists_const] at ran
    obtain ⟨-, rfl⟩ := ran
    exact .of_same (fun _ mem => mem) rfl

theorem semaUp_charges {psema : Nat} (ran : semaUp k psema = .ok k') : Charges k k' := by
  simp only [semaUp, bind_ok, assertThat_ok, pure_ok, exists_const] at ran
  obtain ⟨-, k1, woken, -, rfl⟩ := ran
  have first : Charges k k1 := by
    cases waiters : (k.semas psema).waiters with
    | nil =>
      simp only [wakeWaiter, waiters, pure_ok] at woken
      exact woken ▸ .of_same (fun _ mem => mem) rfl
    | cons waiter rest =>
      simp only [wakeWaiter, waiters] at woken
      refine .trans ?_ (threadUnblock_charges woken)
      exact .of_same (fun _ mem => mem) rfl
  exact first.trans (.of_same (fun _ mem => mem) rfl)

theorem threadStart_quanta {page prio : Nat} (quanta : Quanta k) (ran : threadStart k page prio = .ok k') :
    Quanta k' := by
  simp only [threadStart, bind_ok, assertThat_ok, pure_ok, exists_const] at ran
  obtain ⟨-, -, rfl⟩ := ran
  intro u mem
  by_cases eq : u = page
  · subst eq
    have small := Nat.mod_lt prio (show 0 < 256 by decide)
    simpa [initThread] using small
  · have live : u ∈ k.allList :=
      (List.mem_append.1 mem).resolve_right fun new => eq (List.mem_singleton.1 new)
    simpa [initThread, eq] using quanta u live

theorem act_quanta {op : Op} (h : Inv k) (quanta : Quanta k) (allowed : Allowed k op) (ran : act k op = .ok k') :
    Quanta k' := by
  cases op with
  | timer => exact (intrTimerHandler_charges ran).quanta quanta
  | block stat => exact (threadBlock_charges ran).quanta quanta
  | unblock pthread => exact (threadUnblock_charges ran).quanta quanta
  | yield => exact (threadYield_charges ran).quanta quanta
  | start page prio => exact threadStart_quanta quanta ran
  | exit =>
    have ran : threadExit k k.running true = .ok k' := ran
    have absent := (h.toLists.running_free h.status_running).1
    exact (threadExit_charges absent ran).quanta quanta
  | reap threadOver =>
    have ran : threadExit k threadOver false = .ok k' := ran
    have absent : threadOver ∉ k.readyList := by
      intro mem
      have status := ((h.ready_iff threadOver).1 mem).2
      rw [allowed.2.1] at status
      cases status
    exact (threadExit_charges absent ran).quanta quanta
  | init psema value =>
    cases ran
    exact quanta
  | down psema => exact (semaDown_charges ran).quanta quanta
  | up psema => exact (semaUp_charges ran).quanta quanta
  | intr on =>
    cases ran
    exact quanta

theorem threadInit_quanta {mem : Nat → Task} {values : Nat → Nat} {init main idle : Nat}
    (start : threadInit mem values init main idle = .ok k) : Quanta k := by
  simp only [threadInit, bind_ok, pure_ok] at start
  obtain ⟨k1, first, k2, second, k3, third, rfl⟩ := start
  have quanta1 : Quanta k1 := threadStart_quanta (fun u mem => by cases mem) first
  have quanta2 : Quanta k2 := by
    simp only [makeMainThread, bind_ok, assertThat_ok, pure_ok, exists_const] at second
    obtain ⟨-, rfl⟩ := second
    intro u mem
    by_cases eq : u = k1.running
    · subst eq
      simp [initThread]
    · have live : u ∈ k1.allList :=
        (List.mem_append.1 mem).resolve_right fun new => eq (List.mem_singleton.1 new)
      simpa [initThread, eq] using quanta1 u live
  have quanta3 : Quanta k3 := threadStart_quanta quanta2 third
  exact quanta3

theorem Reachable.quanta (h : Reachable k) : Quanta k := by
  induction h with
  | init pages start => exact threadInit_quanta start
  | step before allowed ran ih => exact act_quanta before.inv ih allowed ran

theorem Quanta.budget_le (h : Quanta k) (t : Nat) : k.budget t ≤ 256 * k.allList.length := by
  have each : ∀ u ∈ k.ahead t, (k.tasks u).ticks + 1 ≤ 256 := by
    intro u mem
    have time := h u (mem_ahead.1 mem).1
    omega
  have few : (k.ahead t).card ≤ k.allList.length :=
    (List.toFinset_card_le _).trans (List.length_filter_le _ _)
  calc k.budget t ≤ (k.ahead t).card * 256 := by
        exact Finset.sum_le_card_nsmul _ _ 256 each
    _ ≤ 256 * k.allList.length := by
        rw [Nat.mul_comm]
        exact Nat.mul_le_mul_left 256 few

end Time

section Waiting

variable {k k' : Kernel} {t : Nat} {ops : List Op}

theorem Inv.runs_ready (h : Inv k) (ready : t ∈ k.readyList) (run : Runs k ops k')
    (many : k.budget t ≤ ops.count .timer) : ∃ pre k1, pre <+: ops ∧ Runs k pre k1 ∧ k1.running = t ∧
      pre.count .timer ≤ k.budget t := by
  induction run with
  | nil k => exact absurd many (Nat.not_le.2 h.budget_pos)
  | @cons k k1 k2 op ops allowed ran rest ih =>
    have inv1 : Inv k1 := by
      by_cases beyond : Overrun k op
      · rw [(act_step h allowed).2 beyond] at ran
        cases ran
      · obtain ⟨k3, ran3, inv⟩ := (act_step h allowed).1 beyond
        rw [ran3] at ran
        cases ran
        exact inv
    rcases act_keeps h ready allowed ran with runs | ⟨ready1, less⟩
    · have once : [op].count .timer ≤ 1 := List.count_le_length
      have some : 0 < k.budget t := h.budget_pos
      exact ⟨[op], k1, by simp, .cons allowed ran (.nil k1), runs, by omega⟩
    · have count : ∀ l, (op :: l).count .timer = [op].count .timer + l.count .timer :=
        fun l => @List.count_append _ _ Op.timer [op] l
      have many1 : k1.budget t ≤ ops.count .timer := by
        rw [count] at many
        have more := h.budget_pos (t := t)
        by_cases timer : op = .timer
        · subst timer
          have one : [Op.timer].count .timer = 1 := rfl
          omega
        · have zero : [op].count .timer = 0 := by simp [timer]
          omega
      obtain ⟨pre, k3, sub, runs, served, few⟩ := ih inv1 ready1 many1
      refine ⟨op :: pre, k3, List.cons_prefix_cons.2 ⟨rfl, sub⟩, .cons allowed ran runs, served, ?_⟩
      rw [count]
      omega

/-- In every run from a reachable state a ready task has had the processor before as many
timer interrupts have come as the tasks that are not behind it have time left, whatever the
tasks do: sleep, wake each other, give way, start others. This is at most 256 for each live
task. -/
theorem ready_task_runs (h : Reachable k) (ready : t ∈ k.readyList) (run : Runs k ops k')
    (many : k.budget t ≤ ops.count .timer) :
    (∃ pre k1, pre <+: ops ∧ Runs k pre k1 ∧ k1.running = t ∧ pre.count .timer ≤ k.budget t) ∧
    k.budget t ≤ 256 * k.allList.length :=
  ⟨h.inv.runs_ready ready run many, h.quanta.budget_le t⟩

/-- Task 5 waits for task 4, which has one tick left and starts another task. -/
theorem ready_task_runs_second : ∃ k k' pre k1, Runs k [.start 6 7, .timer, .timer] k' ∧ k.running = 4 ∧
    k.readyList = [5, 3] ∧ pre <+: [.start 6 7, .timer, .timer] ∧ Runs k pre k1 ∧ k1.running = 5 ∧
    pre.count .timer ≤ 2 := by
  have booted : Reachable _ :=
    @Reachable.init (fun _ => ⟨.died, 0, 0, 0, false⟩) (fun _ => 1) 1 2 3 _ (by decide) rfl
  have left : Reachable _ := @Reachable.step _ _ (.block .hanging) booted (.inr (.inr rfl)) rfl
  have reaped : Reachable _ := @Reachable.step _ _ (.reap 2) left ⟨by decide, rfl, by decide⟩ rfl
  have exited : Reachable _ := @Reachable.step _ _ .exit reaped (show 1 ≠ 3 by decide) rfl
  have four : Reachable _ := @Reachable.step _ _ (.start 4 1) exited ⟨by decide, by decide⟩ rfl
  have five : Reachable _ := @Reachable.step _ _ (.start 5 0) four ⟨by decide, by decide⟩ rfl
  have yielded : Reachable _ := @Reachable.step _ _ .yield five trivial rfl
  have run : ∃ k, Reachable k ∧ k.running = 4 ∧ k.readyList = [5, 3] ∧ k.budget 5 ≤ 2 ∧
      ∃ k', Runs k [.start 6 7, .timer, .timer] k' := by
    refine ⟨_, yielded, rfl, rfl, ?budget, ?last, .cons ⟨?new, ?notMain⟩ rfl (.cons rfl rfl (.cons rfl rfl ?rest))⟩
    case budget => decide +kernel
    case new => decide
    case notMain => decide
    case rest => exact .nil _
  obtain ⟨k, reached, running, list, small, k', run⟩ := run
  obtain ⟨pre, k1, sub, runs, served, few⟩ :=
    (ready_task_runs reached (by simp [list]) run small).1
  exact ⟨k, k', pre, k1, run, running, list, sub, runs, served, few.trans small⟩

end Waiting

end Sched
end Sparrow
