import Sparrow.Userprog.WaitExit

/-!
# The tasks of `sys_wait` in the scheduler

`Sparrow.Userprog.WaitExit` keeps of a task its number and its status, and lets the scheduler pick any
ready task; `Sparrow.Thread.Sched` has the ready list that says which. Both start with the same tasks
(`init_shows`), and what the timer, `thread_start`, `thread_block`, `thread_unblock` and `thread_exit` do
there to the tasks they do here to numbers and statuses (`timer_shows`, `start_shows`, `block_shows`,
`idle_shows`, `unblock_shows`, `exit_shows`).
-/

namespace Sparrow.Reap
set_option autoImplicit false

open Sched (Kernel)

/-- The status a task is seen with. The idle thread blocks itself whenever it runs; it counts as ready then. -/
def seenStatus (k : Kernel) (page : Nat) : TaskStatus :=
  if page = k.idleThread ∧ (k.tasks page).status.Sleeps then .ready else (k.tasks page).status

/-- The list of all tasks, each with its number and its status; no two have one number. -/
structure Shows (pidOf : Nat → Nat) (k : Kernel) (s : Tasks) : Prop where
  tasks : List.Forall₂ (fun page t => t.pid = pidOf page ∧ t.status = seenStatus k page) k.allList s.allList
  distinct : ∀ p ∈ k.allList, ∀ q ∈ k.allList, pidOf p = pidOf q → p = q

/-- In `schedule` the running task becomes ready. -/
def Tasks.preempt (s : Tasks) : Tasks :=
  { s with allList := s.allList.map fun t : TaskStruct => if t.status = TaskStatus.running then { t with status := .ready } else t }

section Statuses

variable {k k' : Kernel} {page : Nat}

theorem not_sleeps_running : ¬ TaskStatus.running.Sleeps := by decide

theorem not_sleeps_ready : ¬ TaskStatus.ready.Sleeps := by decide

theorem seenStatus_congr (same : (k'.tasks page).status = (k.tasks page).status) (idle : k'.idleThread = k.idleThread) :
    seenStatus k' page = seenStatus k page := by
  rw [seenStatus, seenStatus, same, idle]

theorem seenStatus_of {stat : TaskStatus} (status : (k.tasks page).status = stat)
    (shown : page ≠ k.idleThread ∨ ¬ stat.Sleeps) :
    seenStatus k page = stat := by
  rw [seenStatus, status, if_neg]
  rintro ⟨isIdle, sleeps⟩
  exact shown.elim (· isIdle) (· sleeps)

theorem seenStatus_running : seenStatus k page = .running ↔ (k.tasks page).status = .running := by
  rw [seenStatus]
  split
  · rename_i both
    rcases both.2 with stat | stat | stat <;> simp [stat]
  · rfl

end Statuses

section Views

variable {pidOf : Nat → Nat} {k k' : Kernel} {s : Tasks} {page : Nat} {stat : TaskStatus}

/-- A change of the numbers and statuses that fits the change of the tasks. -/
theorem Shows.map (h : Shows pidOf k s) (all : k'.allList = k.allList) {f : TaskStruct → TaskStruct}
    (fits : ∀ p ∈ k.allList, ∀ t, t.pid = pidOf p → t.status = seenStatus k p →
      (f t).pid = t.pid ∧ (f t).status = seenStatus k' p) :
    Shows pidOf k' { s with allList := s.allList.map f } := by
  refine ⟨?_, by rw [all]; exact h.distinct⟩
  rw [all]
  refine List.forall₂_map_right_iff.2 (((List.forall₂_and_left _ _).2 ⟨fun p mem => mem, h.tasks⟩).imp fun p t both => ?_)
  obtain ⟨mem, pid, status⟩ := both
  obtain ⟨same, now⟩ := fits p mem t pid status
  exact ⟨same.trans pid, now⟩

/-- Only what the tasks are seen with matters. -/
theorem Shows.congr (h : Shows pidOf k s) (all : k'.allList = k.allList) (seen : ∀ p ∈ k.allList, seenStatus k' p = seenStatus k p) :
    Shows pidOf k' s := by
  have same : Shows pidOf k' { s with allList := s.allList.map id } :=
    h.map all fun p mem t _ status => ⟨rfl, status.trans (seen p mem).symm⟩
  rwa [List.map_id] at same

/-- One task gets a status. -/
theorem Shows.update (h : Shows pidOf k s) (live : page ∈ k.allList) (all : k'.allList = k.allList) (idle : k'.idleThread = k.idleThread)
    (now : (k'.tasks page).status = stat) (shown : page ≠ k.idleThread ∨ ¬ stat.Sleeps)
    (others : ∀ p, p ≠ page → (k'.tasks p).status = (k.tasks p).status) :
    Shows pidOf k' (s.update (pidOf page) fun t => { t with status := stat }) := by
  refine h.map all fun p mem t pid status => ?_
  by_cases here : p = page
  · rw [if_pos (by rw [pid, here]), here, seenStatus_of now (by rw [idle]; exact shown)]
    exact ⟨rfl, rfl⟩
  · rw [if_neg fun same => here (h.distinct p mem page live (pid ▸ same)), seenStatus_congr (others p here) idle]
    exact ⟨rfl, status⟩

theorem setStatus_status : ((k.setStatus page stat).tasks page).status = stat := by
  simp [Kernel.setStatus]

theorem setStatus_status_of_ne {p : Nat} (ne : p ≠ page) : ((k.setStatus page stat).tasks p).status = (k.tasks p).status := by
  simp [Kernel.setStatus, ne]

/-- What `thread_block` does to the status of another task. -/
theorem asleep_status_of_ne {p : Nat} (ne : p ≠ k.running) :
    ((k.saveIntr.setStatus k.running stat).tasks p).status = (k.tasks p).status := by
  rw [setStatus_status_of_ne ne]
  simp [Kernel.saveIntr, ne]

theorem threadUnblock_ok (ran : Sched.threadUnblock k page = .ok k') : (k.tasks page).status.Sleeps ∧ k' = k.woken page := by
  simp only [Sched.threadUnblock, bind_ok, assertThat_ok, exists_const] at ran
  obtain ⟨sleeps, ran⟩ := ran
  have notReady : (k.tasks page).status ≠ .ready := fun ready => not_sleeps_ready (ready ▸ sleeps)
  rw [if_pos notReady] at ran
  simp only [bind_ok, assertThat_ok, pure_ok, exists_const] at ran
  exact ⟨sleeps, ran.2.symm⟩

/-- **`thread_unblock`** makes the task ready. -/
theorem unblock_shows (h : Shows pidOf k s) (live : page ∈ k.allList) (ran : Sched.threadUnblock k page = .ok k') :
    Shows pidOf k' (threadUnblock s (pidOf page)) := by
  obtain ⟨-, rfl⟩ := threadUnblock_ok ran
  refine h.update live ?_ ?_ setStatus_status (.inr not_sleeps_ready) fun p ne => setStatus_status_of_ne ne
  · rfl
  · rfl

theorem requeue_ok (ran : Sched.requeue k = .ok k') : (k'.allList = k.allList ∧ k'.idleThread = k.idleThread) ∧
    ((k.tasks k.running).status = .running ∧ (k'.tasks k.running).status = .ready ∧
      (∀ p, p ≠ k.running → (k'.tasks p).status = (k.tasks p).status) ∨ (k.tasks k.running).status ≠ .running ∧ k' = k) := by
  rw [Sched.requeue] at ran
  split at ran
  · rename_i status
    simp only [bind_ok, assertThat_ok, pure_ok, exists_const] at ran
    obtain ⟨-, rfl⟩ := ran
    exact ⟨⟨rfl, rfl⟩, .inl ⟨status, by simp, fun p ne => by simp [ne]⟩⟩
  · rename_i status
    rw [pure_ok] at ran
    subst ran
    exact ⟨⟨rfl, rfl⟩, .inr ⟨status, rfl⟩⟩

theorem dispatch_ok (ran : Sched.dispatch k = .ok k') : (k'.allList = k.allList ∧ k'.idleThread = k.idleThread) ∧
    k'.running ∈ k.readyList ∧ (k'.tasks k'.running).status = .running ∧
      ∀ p, p ≠ k'.running → (k'.tasks p).status = (k.tasks p).status := by
  rw [Sched.dispatch] at ran
  split at ran
  · exact (throw_ok.1 ran).elim
  · rename_i next rest ready
    rw [pure_ok] at ran
    subst ran
    refine ⟨⟨rfl, rfl⟩, ?_, setStatus_status, fun p ne => setStatus_status_of_ne ne⟩
    rw [ready]
    exact List.mem_cons_self

theorem requeue_shows (h : Shows pidOf k s) (leaving : Sched.Leaving k) (ran : Sched.requeue k = .ok k') :
    Shows pidOf k' s.preempt := by
  obtain ⟨⟨all, idle⟩, change⟩ := requeue_ok ran
  refine h.map all fun p mem t pid seen => ?_
  by_cases status : (k.tasks p).status = .running
  · have here : p = k.running := leaving.only p mem status
    subst here
    rw [if_pos (seen.trans (seenStatus_running.2 status))]
    obtain ⟨-, now, -⟩ | ⟨notRunning, -⟩ := change
    · exact ⟨rfl, (seenStatus_of now (.inr not_sleeps_ready)).symm⟩
    · exact absurd status notRunning
  · rw [if_neg fun run => status (seenStatus_running.1 (seen.symm.trans run)), seen]
    refine ⟨rfl, (seenStatus_congr ?_ idle).symm⟩
    obtain ⟨run, -, others⟩ | ⟨-, rfl⟩ := change
    · exact others p fun here => status (here ▸ run)
    · rfl

/-- In `schedule`: the idle thread counts as ready before it is woken. -/
theorem wakeIdle_seen (ran : Sched.wakeIdle k = .ok k') : (k'.allList = k.allList ∧ k'.idleThread = k.idleThread) ∧
    ∀ p, seenStatus k' p = seenStatus k p := by
  rw [Sched.wakeIdle] at ran
  split at ran
  · obtain ⟨sleeps, rfl⟩ := threadUnblock_ok ran
    refine ⟨⟨rfl, rfl⟩, fun p => ?_⟩
    by_cases here : p = k.idleThread
    · subst here
      have now : ((k.woken k.idleThread).tasks k.idleThread).status = .ready := setStatus_status
      rw [seenStatus_of now (.inr not_sleeps_ready), seenStatus, if_pos ⟨rfl, sleeps⟩]
    · refine seenStatus_congr (setStatus_status_of_ne here) ?_
      rfl
  · rw [pure_ok] at ran
    rw [← ran]
    exact ⟨⟨rfl, rfl⟩, fun _ => rfl⟩

/-- A task that is seen is in the scheduler's list. -/
theorem Shows.listed (h : Shows pidOf k s) {t : TaskStruct} (mem : t ∈ s.allList) :
    ∃ p ∈ k.allList, t.pid = pidOf p ∧ t.status = seenStatus k p := by
  obtain ⟨i, lt, is⟩ := List.getElem_of_mem mem
  obtain ⟨same, each⟩ := List.forall₂_iff_get.1 h.tasks
  refine ⟨k.allList[i], List.getElem_mem _, ?_⟩
  have here := each i (same ▸ lt) lt
  rwa [List.get_eq_getElem, List.get_eq_getElem, is] at here

/-- A task of the scheduler's list is seen. -/
theorem Shows.task (h : Shows pidOf k s) (live : page ∈ k.allList) :
    ∃ t ∈ s.allList, t.pid = pidOf page ∧ t.status = seenStatus k page := by
  obtain ⟨i, lt, is⟩ := List.getElem_of_mem live
  obtain ⟨same, each⟩ := List.forall₂_iff_get.1 h.tasks
  refine ⟨s.allList[i], List.getElem_mem _, ?_⟩
  have here := each i lt (same ▸ lt)
  rwa [List.get_eq_getElem, List.get_eq_getElem, is] at here

theorem schedule_of {pid : Nat} (ready : ∃ t ∈ s.allList, t.pid = pid ∧ t.status = .ready) :
    schedule pid s = .ok (s.preempt.update pid fun t => { t with status := .running }) := by
  rw [schedule, defined_of ready]
  rfl

theorem schedule_eq {pid : Nat} {s' : Tasks} (h : schedule pid s = .ok s') :
    s' = s.preempt.update pid fun t => { t with status := .running } := by
  simp only [schedule, bind_ok, pure_ok] at h
  obtain ⟨-, -, rfl⟩ := h
  rfl

theorem preempt_preempt : s.preempt.preempt = s.preempt := by
  simp only [Tasks.preempt, List.map_map]
  congr 2
  funext t
  simp only [Function.comp_apply]
  split
  · simp
  · rfl

/-- **`schedule`** picks a task that is seen as ready, or the running task again. -/
theorem schedule_shows (h : Shows pidOf k s) (leaving : Sched.Leaving k) (ran : Sched.schedule k = .ok k') :
    (∃ s', schedule (pidOf k'.running) s = .ok s' ∧ Shows pidOf k' s') ∨
      k'.running = k.running ∧ (k.tasks k.running).status = .running ∧ Shows pidOf k' s := by
  simp only [Sched.schedule, bind_ok, assertThat_ok, exists_const] at ran
  obtain ⟨-, k1, requeued, k2, woken, ran⟩ := ran
  obtain ⟨k1', requeued', lists1, quiet1⟩ := leaving.requeue
  rw [requeued] at requeued'
  cases requeued'
  obtain ⟨k2', woken', lists2, -, -⟩ := lists1.wakeIdle quiet1
  rw [woken] at woken'
  cases woken'
  obtain ⟨⟨all1, idle1⟩, change⟩ := requeue_ok requeued
  obtain ⟨⟨all2, idle2⟩, seen2⟩ := wakeIdle_seen woken
  obtain ⟨⟨all3, idle3⟩, first, now, others⟩ := dispatch_ok ran
  obtain ⟨live, ready⟩ := (lists2.ready_iff k'.running).1 first
  have sub : ∀ p ∈ k2.allList, p ∈ k.allList := fun p mem => by rwa [← all1, ← all2]
  have before : ∀ p, p ≠ k.running ∨ (k.tasks k.running).status ≠ .running → seenStatus k2 p = seenStatus k p := by
    intro p other
    rw [seen2]
    obtain ⟨status, -, same⟩ | ⟨-, rfl⟩ := change
    · exact seenStatus_congr (same p (other.resolve_right (not_not.2 status))) idle1
    · rfl
  by_cases again : k'.running = k.running ∧ (k.tasks k.running).status = .running
  · refine .inr ⟨again.1, again.2, h.congr (all3.trans (all2.trans all1)) fun p mem => ?_⟩
    by_cases here : p = k'.running
    · rw [here, seenStatus_of now (.inr not_sleeps_running), again.1, seenStatus_of again.2 (.inr not_sleeps_running)]
    · rw [seenStatus_congr (others p here) idle3]
      exact before p (.inl fun e => here (e.trans again.1.symm))
  · have other : k'.running ≠ k.running ∨ (k.tasks k.running).status ≠ .running := not_and_or.1 again
    obtain ⟨t, mem, pid, status⟩ := h.task (sub _ live)
    rw [← before _ other, seenStatus_of ready (.inr not_sleeps_ready)] at status
    exact .inl ⟨_, schedule_of ⟨t, mem, pid, status⟩, ((requeue_shows h leaving requeued).congr all2 fun p _ => seen2 p).update live
      all3 idle3 now (.inr not_sleeps_running) others⟩

/-- **`thread_block`** of a task that is not the idle thread puts it to sleep and schedules. -/
theorem block_shows (h : Shows pidOf k s) (inv : Sched.Inv k) (notIdle : k.running ≠ k.idleThread)
    (ran : Sched.threadBlock k stat = .ok k') :
    ∃ s', schedule (pidOf k'.running) (threadBlock s (pidOf k.running) stat) = .ok s' ∧ Shows pidOf k' s' := by
  simp only [Sched.threadBlock, bind_ok, assertThat_ok, exists_const] at ran
  obtain ⟨sleeps, ran⟩ := ran
  have leaving : Sched.Leaving (k.saveIntr.setStatus k.running stat) := inv.saveIntr.sleep sleeps
  have asleep : Shows pidOf (k.saveIntr.setStatus k.running stat) (threadBlock s (pidOf k.running) stat) :=
    h.update inv.alive_running rfl rfl setStatus_status (.inl notIdle) fun p ne => asleep_status_of_ne ne
  obtain same | ⟨-, runs, -⟩ := schedule_shows asleep leaving ran
  · exact same
  · have status : ((k.saveIntr.setStatus k.running stat).tasks k.running).status = stat := setStatus_status
    exact absurd (status.symm.trans runs ▸ sleeps) not_sleeps_running

/-- When the running task gets the processor again, the tasks are as they were. -/
theorem Shows.preempt_update (h : Shows pidOf k s) (inv : Sched.Inv k) :
    s.preempt.update (pidOf k.running) (fun t => { t with status := .running }) = s := by
  rw [Tasks.preempt, Tasks.update, List.map_map]
  have same : s.allList.map ((fun t => if t.pid = pidOf k.running then { t with status := .running } else t) ∘
      fun t : TaskStruct => if t.status = TaskStatus.running then { t with status := .ready } else t) = s.allList := by
    refine (List.map_congr_left fun t mem => ?_).trans (List.map_id _)
    obtain ⟨p, live, pid, seen⟩ := h.listed mem
    by_cases here : p = k.running
    · have run : t.status = .running := seen.trans (seenStatus_running.2 (here ▸ inv.status_running))
      rw [Function.comp_apply, if_pos run, if_pos (pid.trans (congrArg pidOf here)), id_eq]
      exact congrArg (fun status => { t with status := status }) run.symm
    · have other : t.status ≠ .running := fun run => here (inv.only p live (seenStatus_running.1 (seen.symm.trans run)))
      have ne : t.pid ≠ pidOf k.running := fun e => here (h.distinct p live _ inv.alive_running (pid.symm.trans e))
      simp only [Function.comp_apply, if_neg other, if_neg ne, id_eq]
  exact congrArg (fun l => { s with allList := l }) same

/-- **`thread_block`** of the idle thread schedules, or leaves the tasks alone. -/
theorem idle_shows (h : Shows pidOf k s) (inv : Sched.Inv k) (idle : k.running = k.idleThread)
    (ran : Sched.threadBlock k stat = .ok k') :
    (∃ s', schedule (pidOf k'.running) s = .ok s' ∧ Shows pidOf k' s') ∨ Shows pidOf k' s := by
  simp only [Sched.threadBlock, bind_ok, assertThat_ok, exists_const] at ran
  obtain ⟨sleeps, ran⟩ := ran
  have now : ((k.saveIntr.setStatus k.running stat).tasks k.running).status = stat := setStatus_status
  -- asleep it is seen as ready
  have asleep : Shows pidOf (k.saveIntr.setStatus k.running stat) s.preempt := by
    rw [Tasks.preempt]
    refine h.map (show (k.saveIntr.setStatus k.running stat).allList = k.allList from rfl) fun p mem t pid seen => ?_
    by_cases here : p = k.running
    · subst here
      rw [if_pos (seen.trans (seenStatus_running.2 inv.status_running)), seenStatus,
        if_pos ⟨idle, by rw [now]; exact sleeps⟩]
      exact ⟨rfl, rfl⟩
    · have other : (k.tasks p).status ≠ .running := fun run => here (inv.only p mem run)
      rw [if_neg fun run => other (seenStatus_running.1 (seen.symm.trans run)), seen]
      exact ⟨rfl, (seenStatus_congr (asleep_status_of_ne here) rfl).symm⟩
  obtain ⟨s', picked, shows⟩ | ⟨-, runs, -⟩ := schedule_shows asleep (inv.saveIntr.sleep sleeps) ran
  · have isS := schedule_eq picked
    rw [preempt_preempt] at isS
    by_cases again : pidOf k'.running = pidOf k.running
    · right
      rwa [isS, again, h.preempt_update inv] at shows
    · left
      refine ⟨s', ?_, shows⟩
      simp only [schedule, bind_ok, defined_ok, exists_const] at picked
      obtain ⟨⟨t, mem, pid, ready⟩, -⟩ := picked
      obtain ⟨u, memu, isT⟩ := List.mem_map.1 mem
      obtain ⟨p, live, pidu, status⟩ := h.listed memu
      rw [isS]
      refine schedule_of ⟨u, memu, ?_⟩
      split at isT
      · rename_i run
        have here : p = k.running := inv.only p live (seenStatus_running.1 (status.symm.trans run))
        subst isT here
        exact absurd (pid.symm.trans pidu) again
      · subst isT
        exact ⟨pid, ready⟩
  · exact absurd (now.symm.trans runs ▸ sleeps) not_sleeps_running

/-- **The timer interrupt** leaves the tasks alone or schedules. -/
theorem timer_shows (h : Shows pidOf k s) (inv : Sched.Inv k) (ran : Sched.intrTimerHandler k = .ok k') :
    (∃ s', schedule (pidOf k'.running) s = .ok s' ∧ Shows pidOf k' s') ∨ Shows pidOf k' s := by
  -- only the ticks and the saved flag of the running task change
  have seen : ∀ (task : Sched.Task) (intr : Bool), task.status = (k.tasks k.running).status →
      Shows pidOf { k with tasks := Function.update k.tasks k.running task, intr := intr } s := by
    intro task intr same
    refine h.congr rfl fun p _ => seenStatus_congr ?_ rfl
    by_cases here : p = k.running
    · simp [here, same]
    · simp [here]
  simp only [Sched.intrTimerHandler, Kernel.saveIntr, Function.update_idem, Function.update_self] at ran
  split at ran
  · refine (schedule_shows ?_ ?_ ran).imp_right fun same => same.2.2
    · exact seen _ _ rfl
    · refine (inv.setTask ?_).leaving
      rfl
  · rw [pure_ok] at ran
    subst ran
    exact .inr (seen _ _ rfl)

/-- **`thread_init`** ends with `init`, the main thread and the idle thread, numbered in this order. -/
theorem init_shows {mem : Nat → Sched.Task} {values : Nat → Nat} {init main idle : Nat} (pages : [0, init, main, idle].Nodup)
    (start : Sched.threadInit mem values init main idle = .ok k) (pid1 : pidOf init = 1) (pid2 : pidOf main = 2)
    (pid3 : pidOf idle = 3) : Shows pidOf k bootTasks := by
  obtain ⟨zero, rest⟩ := List.nodup_cons.1 pages
  simp only [Sched.threadInit, Sched.threadStart, Sched.makeMainThread, bind_ok, assertThat_ok, pure_ok, exists_const] at start
  obtain ⟨k1, ⟨-, -, rfl⟩, k2, ⟨-, rfl⟩, k3, ⟨-, -, rfl⟩, rfl⟩ := start
  simp only [List.nodup_cons, List.mem_cons, List.not_mem_nil, not_or, or_false] at zero rest
  obtain ⟨⟨initMain, initIdle⟩, mainIdle, -⟩ := rest
  refine ⟨.cons ⟨pid1.symm, ?_⟩ (.cons ⟨pid2.symm, ?_⟩ (.cons ⟨pid3.symm, ?_⟩ .nil)), ?_⟩
  · exact (seenStatus_of (by simp [Sched.initThread, initMain, initIdle, Ne.symm zero.1]) (.inr not_sleeps_ready)).symm
  · exact (seenStatus_of (by simp [Sched.initThread, Ne.symm mainIdle, mainIdle]) (.inr not_sleeps_running)).symm
  · exact (seenStatus_of (by simp [Sched.initThread, Ne.symm mainIdle]) (.inr not_sleeps_ready)).symm
  · intro p memp q memq same
    simp only [Sched.initThread, List.nil_append, List.cons_append, List.mem_cons, List.not_mem_nil, or_false] at memp memq
    obtain rfl | rfl | rfl := memp <;> obtain rfl | rfl | rfl := memq <;> simp_all

/-- **`thread_start`**: a new task, ready, at the end of the list. -/
theorem start_shows {prio : Nat} {t : TaskStruct} (h : Shows pidOf k s) (ran : Sched.threadStart k page prio = .ok k')
    (new : page ∉ k.allList) (notMain : page ≠ k.mainThread) (pid : t.pid = pidOf page) (ready : t.status = .ready)
    (unused : ∀ p ∈ k.allList, pidOf p ≠ pidOf page) : Shows pidOf k' { s with allList := s.allList ++ [t] } := by
  simp only [Sched.threadStart, bind_ok, assertThat_ok, pure_ok, exists_const] at ran
  obtain ⟨-, -, rfl⟩ := ran
  have others : ∀ p ∈ k.allList, ((Sched.initThread k page prio).tasks p).status = (k.tasks p).status := by
    intro p mem
    have ne : p ≠ page := fun here => new (here ▸ mem)
    simp [Sched.initThread, ne]
  have old : Shows pidOf (Sched.initThread k page prio) s := h.congr rfl fun p mem => seenStatus_congr (others p mem) rfl
  have now : ((Sched.initThread k page prio).tasks page).status = .ready := by simp [Sched.initThread, notMain]
  have seen : seenStatus (Sched.initThread k page prio) page = .ready := seenStatus_of now (.inr not_sleeps_ready)
  refine ⟨?_, ?_⟩
  · exact List.rel_append old.tasks (.cons ⟨pid, ready.trans seen.symm⟩ .nil)
  · intro p memp q memq same
    obtain oldp | newp := List.mem_append.1 memp <;> obtain oldq | newq := List.mem_append.1 memq
    · exact h.distinct p oldp q oldq same
    · exact absurd (same.trans (congrArg pidOf (List.mem_singleton.1 newq))) (unused p oldp)
    · exact absurd (same.symm.trans (congrArg pidOf (List.mem_singleton.1 newp))) (unused q oldq)
    · rw [List.mem_singleton.1 newp, List.mem_singleton.1 newq]

/-- **`thread_exit`** of a task that does not run takes it off the list of all tasks. -/
theorem exit_shows (h : Shows pidOf k s) (inv : Sched.Inv k) (ran : Sched.threadExit k page false = .ok k')
    (live : page ∈ k.allList) (hanging : (k.tasks page).status = .hanging) : Shows pidOf k' (threadExit s (pidOf page)) := by
  have absent : page ∉ k.readyList := fun ready => by
    have isReady := ((inv.ready_iff page).1 ready).2
    rw [hanging] at isReady
    cases isReady
  rw [Sched.threadExit_absent absent, if_neg Bool.false_ne_true, pure_ok] at ran
  subst ran
  refine ⟨?_, fun p memp q memq => h.distinct p (List.mem_of_mem_erase memp) q (List.mem_of_mem_erase memq)⟩
  have goes : ∀ p ∈ k.allList, ∀ t : TaskStruct, t.pid = pidOf p →
      ((p != page) = true ↔ decide (t.pid ≠ pidOf page) = true) := by
    intro p mem t pid
    rw [bne_iff_ne, decide_eq_true_eq, pid]
    exact not_congr ⟨congrArg pidOf, h.distinct p mem page live⟩
  have seen := (List.forall₂_and_left _ _).2 ⟨fun p mem => mem, h.tasks⟩
  have kept := List.rel_filter (fun p t both => goes p both.1 t both.2.1) seen
  rw [← inv.allNodup.erase_eq_filter] at kept
  refine ((List.forall₂_and_left _ _).2 ⟨fun p mem => mem, kept⟩).imp fun p t both => ⟨both.2.2.1, both.2.2.2.trans ?_⟩
  have ne : p ≠ page := (inv.allNodup.mem_erase_iff.1 both.1).1
  exact (seenStatus_congr (setStatus_status_of_ne ne) rfl).symm

end Views

end Sparrow.Reap
