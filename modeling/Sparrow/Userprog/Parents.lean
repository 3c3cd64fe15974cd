import Sparrow.Userprog.WaitExit

/-!
# Parents and children

A parent is known by its `pid` only, and `pid`s are used again. `Family` says that the
parent of every process is a task that has not exited: an exit hands the children to
`init`, and only a task that exited is ever taken off the list, so a number that becomes
free is nobody's parent.

To tell processes with the same `pid` apart, `History` numbers them in the order they are
made. It records what each of them exited with and what each `sys_wait` returned.
-/

namespace Sparrow.Reap
set_option autoImplicit false

/-- An exit, or a `sys_wait` that returned: the process, its `pid` and its status. -/
structure Report where
  serial : Nat
  pid : Nat
  status : Int
  deriving DecidableEq, Repr

/-- What happened so far. `serial` names the process that has a `pid` now. -/
structure History where
  made : Nat
  serial : Nat → Nat
  exited : List Report
  returned : List Report

/-- What `sys_wait` by `parent` returns, unless it goes on waiting or returns -1. -/
def waitReturns (parent : TaskStruct) (s : Tasks) : Option (Nat × Int) :=
  (s.allList.find? fun t => t.parentPid = (parent.pid : Int) ∧ t.status = .hanging).map fun child =>
    (child.pid, child.exitStatus)

/-- The step from `s` to `s'` is written down. -/
def observe (s : Tasks) (a : Action) (s' : Tasks) (h : History) : History :=
  match a, s.current with
  | .fork _, some _ =>
    match s'.allList[s.allList.length]? with
    | some child => { h with made := h.made + 1, serial := fun p => if p = child.pid then h.made else h.serial p }
    | none => h
  | .exit status, some t => { h with exited := ⟨h.serial t.pid, t.pid, int8 status⟩ :: h.exited }
  | .wait, some t =>
    match waitReturns t s with
    | some (pid, status) => { h with returned := ⟨h.serial pid, pid, status⟩ :: h.returned }
    | none => h
  | _, _ => h

/-- At the start the three tasks of `thread_init` are there. -/
def History.boot : History := ⟨3, fun pid => pid - 1, [], []⟩

/-- A run with its history. -/
abbrev TracedRun : Tasks × History → Tasks × History → Prop :=
  Relation.ReflTransGen fun x x' => ∃ a, act x.1 a = .ok x'.1 ∧ x'.2 = observe x.1 a x'.1 x.2

/-- The parent of every process is there and has not exited; only `init` and the kernel
threads have none. -/
structure Family (s : Tasks) : Prop where
  init : ∃ t ∈ s.allList, t.pid = 1 ∧ t.parentPid = -1 ∧ t.status ≠ .hanging
  parent : ∀ t ∈ s.allList, t.parentPid ≠ -1 → ∃ p ∈ s.allList, (p.pid : Int) = t.parentPid ∧ p.status ≠ .hanging
  orphans : ∀ t ∈ s.allList, t.parentPid = -1 → t.pid = 1 ∨ t.user = false

/-- Every process exits once and is returned once. -/
structure Traced (s : Tasks) (h : History) : Prop where
  below : ∀ t ∈ s.allList, h.serial t.pid < h.made
  distinct : ∀ t ∈ s.allList, ∀ u ∈ s.allList, h.serial t.pid = h.serial u.pid → t.pid = u.pid
  past : ∀ x ∈ h.exited, x.serial < h.made
  once : (h.exited.map Report.serial).Nodup
  zombie : ∀ t ∈ s.allList, t.status = .hanging → ⟨h.serial t.pid, t.pid, t.exitStatus⟩ ∈ h.exited
  alive : ∀ t ∈ s.allList, t.status ≠ .hanging → ∀ x ∈ h.exited, x.serial ≠ h.serial t.pid
  returned : ∀ x ∈ h.returned, x ∈ h.exited
  onceReturned : (h.returned.map Report.serial).Nodup
  gone : ∀ t ∈ s.allList, ∀ x ∈ h.returned, x.serial ≠ h.serial t.pid

section Steps

variable {s s' : Tasks} {h : History} {pid : Nat} {t : TaskStruct}

/-- The tasks changed, but neither who they are nor whether they exited. -/
structure SameTasks (s s' : Tasks) (f : TaskStruct → TaskStruct) : Prop where
  list : s'.allList = s.allList.map f
  pid : ∀ t ∈ s.allList, (f t).pid = t.pid
  parentPid : ∀ t ∈ s.allList, (f t).parentPid = t.parentPid
  user : ∀ t ∈ s.allList, (f t).user = t.user
  exitStatus : ∀ t ∈ s.allList, (f t).exitStatus = t.exitStatus
  hanging : ∀ t ∈ s.allList, (f t).status = .hanging ↔ t.status = .hanging

theorem SameTasks.mem {f : TaskStruct → TaskStruct} (same : SameTasks s s' f) {t' : TaskStruct} (mem : t' ∈ s'.allList) :
    ∃ t ∈ s.allList, f t = t' := by
  rw [same.list] at mem
  exact List.mem_map.1 mem

theorem SameTasks.family {f : TaskStruct → TaskStruct} (same : SameTasks s s' f) (fam : Family s) : Family s' := by
  have image : ∀ t ∈ s.allList, f t ∈ s'.allList := fun t mem => same.list ▸ List.mem_map_of_mem mem
  refine ⟨?_, fun t' mem' has => ?_, fun t' mem' none => ?_⟩
  · obtain ⟨i, mem, number, none, alive⟩ := fam.init
    refine ⟨f i, image i mem, (same.pid i mem).trans number, (same.parentPid i mem).trans none, fun hang => ?_⟩
    exact alive ((same.hanging i mem).1 hang)
  · obtain ⟨t, mem, rfl⟩ := same.mem mem'
    rw [same.parentPid t mem] at has ⊢
    obtain ⟨p, memp, number, alive⟩ := fam.parent t mem has
    refine ⟨f p, image p memp, by rw [same.pid p memp, number], fun hang => ?_⟩
    exact alive ((same.hanging p memp).1 hang)
  · obtain ⟨t, mem, rfl⟩ := same.mem mem'
    rw [same.parentPid t mem] at none
    rw [same.pid t mem, same.user t mem]
    exact fam.orphans t mem none

theorem SameTasks.traced {f : TaskStruct → TaskStruct} (same : SameTasks s s' f) (tr : Traced s h) : Traced s' h := by
  refine ⟨fun t' mem' => ?_, fun t' mem' u' memu' => ?_, tr.past, tr.once, fun t' mem' => ?_, fun t' mem' => ?_, tr.returned,
    tr.onceReturned, fun t' mem' => ?_⟩
  all_goals obtain ⟨t, mem, rfl⟩ := same.mem mem'
  · rw [same.pid t mem]
    exact tr.below t mem
  · obtain ⟨u, memu, rfl⟩ := same.mem memu'
    rw [same.pid t mem, same.pid u memu]
    exact tr.distinct t mem u memu
  · rw [same.hanging t mem, same.pid t mem, same.exitStatus t mem]
    exact tr.zombie t mem
  · rw [ne_eq, same.hanging t mem, same.pid t mem]
    exact tr.alive t mem
  · rw [same.pid t mem]
    exact tr.gone t mem

theorem SameTasks.trans {s'' : Tasks} {f g : TaskStruct → TaskStruct} (same : SameTasks s s' f) (same' : SameTasks s' s'' g) :
    SameTasks s s'' (g ∘ f) := by
  have image : ∀ t ∈ s.allList, f t ∈ s'.allList := fun t mem => same.list ▸ List.mem_map_of_mem mem
  refine ⟨by rw [same'.list, same.list, List.map_map], ?_, ?_, ?_, ?_, ?_⟩
  · exact fun t mem => (same'.pid _ (image t mem)).trans (same.pid t mem)
  · exact fun t mem => (same'.parentPid _ (image t mem)).trans (same.parentPid t mem)
  · exact fun t mem => (same'.user _ (image t mem)).trans (same.user t mem)
  · exact fun t mem => (same'.exitStatus _ (image t mem)).trans (same.exitStatus t mem)
  · exact fun t mem => (same'.hanging _ (image t mem)).trans (same.hanging t mem)

/-- One task is changed. -/
theorem sameTasks_update {f : TaskStruct → TaskStruct}
    (same : ∀ t, (f t).pid = t.pid ∧ (f t).parentPid = t.parentPid ∧ (f t).user = t.user ∧ (f t).exitStatus = t.exitStatus)
    (hanging : ∀ t ∈ s.allList, t.pid = pid → ((f t).status = .hanging ↔ t.status = .hanging)) :
    SameTasks s (s.update pid f) (fun t => if t.pid = pid then f t else t) := by
  refine ⟨rfl, fun t _ => ?_, fun t _ => ?_, fun t _ => ?_, fun t _ => ?_, fun t mem => ?_⟩
  · split
    · exact (same t).1
    · rfl
  · split
    · exact (same t).2.1
    · rfl
  · split
    · exact (same t).2.2.1
    · rfl
  · split
    · exact (same t).2.2.2
    · rfl
  · split
    · rename_i e
      exact hanging t mem e
    · exact .rfl

/-- **`schedule`** runs another task. -/
theorem sameTasks_schedule (num : Numbered s) (ran : schedule pid s = .ok s') : ∃ f, SameTasks s s' f := by
  simp only [schedule, bind_ok, defined_ok, pure_ok, exists_const] at ran
  obtain ⟨⟨r, memr, isPid, ready⟩, rfl⟩ := ran
  have first : SameTasks s { s with allList := s.allList.map fun t : TaskStruct =>
      if t.status = TaskStatus.running then { t with status := .ready } else t }
      (fun t => if t.status = TaskStatus.running then { t with status := .ready } else t) := by
    refine ⟨rfl, fun t _ => ?_, fun t _ => ?_, fun t _ => ?_, fun t _ => ?_, fun t _ => ?_⟩
    all_goals split
    · rfl
    · rfl
    · rfl
    · rfl
    · rfl
    · rfl
    · rfl
    · rfl
    · rename_i runs
      simp [runs]
    · exact .rfl
  refine ⟨_, first.trans (sameTasks_update (fun _ => ⟨rfl, rfl, rfl, rfl⟩) fun u memu e => ?_)⟩
  obtain ⟨t, mem, rfl⟩ := first.mem memu
  have same : t = r := num.unique mem memr (by rw [← first.pid t mem, e, isPid])
  refine iff_of_false (fun h => by cases h) fun h => ?_
  have := (first.hanging t mem).1 h
  rw [same, ready] at this
  cases this

/-- The number of the new process is new, and so is its serial number. -/
theorem Traced.fork (tr : Traced s h) {parent : TaskStruct} {p : Nat} (unused : ∀ t ∈ s.allList, t.pid ≠ p)
    (list : s'.allList = s.allList ++ [{ parent with pid := p, parentPid := parent.pid, status := .ready }]) :
    Traced s' { h with made := h.made + 1, serial := fun q => if q = p then h.made else h.serial q } := by
  have old : ∀ t ∈ s.allList, (if t.pid = p then h.made else h.serial t.pid) = h.serial t.pid := fun t mem =>
    if_neg (unused t mem)
  have cases : ∀ t ∈ s'.allList, t ∈ s.allList ∨ t = { parent with pid := p, parentPid := parent.pid, status := .ready } := by
    intro t mem
    rw [list, List.mem_append, List.mem_singleton] at mem
    exact mem
  refine ⟨fun t mem => ?_, fun t mem u memu => ?_, fun x mem => Nat.lt_succ_of_lt (tr.past x mem), tr.once,
    fun t mem hang => ?_, fun t mem alive x memx => ?_, tr.returned, tr.onceReturned, fun t mem x memx => ?_⟩
  all_goals dsimp only
  · rcases cases t mem with mem | rfl
    · rw [old t mem]
      exact Nat.lt_succ_of_lt (tr.below t mem)
    · rw [if_pos rfl]
      exact Nat.lt_succ_self _
  · rcases cases t mem with mem | rfl <;> rcases cases u memu with memu | rfl
    · rw [old t mem, old u memu]
      exact tr.distinct t mem u memu
    · rw [old t mem, if_pos rfl]
      exact fun e => absurd (tr.below t mem) (by omega)
    · rw [old u memu, if_pos rfl]
      exact fun e => absurd (tr.below u memu) (by omega)
    · exact fun _ => rfl
  · rcases cases t mem with mem | rfl
    · rw [old t mem]
      exact tr.zombie t mem hang
    · cases hang
  · rcases cases t mem with mem | rfl
    · rw [old t mem]
      exact tr.alive t mem alive x memx
    · rw [if_pos rfl]
      exact fun e => absurd (tr.past x memx) (by omega)
  · rcases cases t mem with mem | rfl
    · rw [old t mem]
      exact tr.gone t mem x memx
    · rw [if_pos rfl]
      exact fun e => absurd (tr.past x (tr.returned x memx)) (by omega)

theorem Family.fork (fam : Family s) {parent : TaskStruct} {p : Nat} (mem : parent ∈ s.allList) (runs : parent.status = .running)
    (list : s'.allList = s.allList ++ [{ parent with pid := p, parentPid := parent.pid, status := .ready }]) : Family s' := by
  have old : ∀ t ∈ s.allList, t ∈ s'.allList := fun t mem => by
    rw [list]
    exact List.mem_append_left _ mem
  refine ⟨?_, fun t mem' has => ?_, fun t mem' none => ?_⟩
  · obtain ⟨i, memi, rest⟩ := fam.init
    exact ⟨i, old i memi, rest⟩
  all_goals rw [list, List.mem_append, List.mem_singleton] at mem'
  · rcases mem' with memt | rfl
    · obtain ⟨q, memq, rest⟩ := fam.parent t memt has
      exact ⟨q, old q memq, rest⟩
    · exact ⟨parent, old parent mem, rfl, by rw [runs]; nofun⟩
  · rcases mem' with memt | rfl
    · exact fam.orphans t memt none
    · exact absurd none (by simp only; omega)

/-- A task that exited is taken off the list: it is nobody's parent. -/
theorem Family.reap (fam : Family s) (num : Numbered s) (mem : t ∈ s.allList) (hang : t.status = .hanging) :
    Family (threadExit s t.pid) := by
  have alive : ∀ u ∈ s.allList, u.status ≠ .hanging → u.pid ≠ t.pid := by
    intro u memu notHanging same
    rw [num.unique memu mem same] at notHanging
    exact notHanging hang
  refine ⟨?_, fun u memu has => ?_, fun u memu none => fam.orphans u (mem_threadExit.1 memu).1 none⟩
  · obtain ⟨i, memi, number, none, living⟩ := fam.init
    exact ⟨i, mem_threadExit.2 ⟨memi, alive i memi living⟩, number, none, living⟩
  · obtain ⟨q, memq, number, living⟩ := fam.parent u (mem_threadExit.1 memu).1 has
    exact ⟨q, mem_threadExit.2 ⟨memq, alive q memq living⟩, number, living⟩

/-- The process returned was not returned before and cannot be returned again. -/
theorem Traced.reap (tr : Traced s h) (mem : t ∈ s.allList) (hang : t.status = .hanging) :
    Traced (threadExit s t.pid) { h with returned := ⟨h.serial t.pid, t.pid, t.exitStatus⟩ :: h.returned } := by
  have kept : ∀ u ∈ (threadExit s t.pid).allList, u ∈ s.allList ∧ u.pid ≠ t.pid := fun u => mem_threadExit.1
  refine ⟨fun u memu => tr.below u (kept u memu).1, fun u memu v memv => tr.distinct u (kept u memu).1 v (kept v memv).1,
    tr.past, tr.once, fun u memu => tr.zombie u (kept u memu).1, fun u memu => tr.alive u (kept u memu).1, ?_, ?_, ?_⟩
  · intro x memx
    rcases List.mem_cons.1 memx with rfl | memx
    · exact tr.zombie t mem hang
    · exact tr.returned x memx
  · rw [List.map_cons, List.nodup_cons]
    refine ⟨fun again => ?_, tr.onceReturned⟩
    obtain ⟨x, memx, same⟩ := List.mem_map.1 again
    exact tr.gone t mem x memx same
  · intro u memu x memx
    obtain ⟨old, ne⟩ := kept u memu
    rcases List.mem_cons.1 memx with rfl | memx
    · exact fun same => ne (tr.distinct t mem u old same).symm
    · exact tr.gone u old x memx

/-- The children of the caller are handed to `init`, which has not exited. -/
theorem Family.exit (fam : Family s) (num : Numbered s) {child q : TaskStruct} {status : Int} (mem : child ∈ s.allList)
    (has : child.parentPid ≠ -1) (list : s'.allList = s.allList.map (afterExit child q status)) : Family s' := by
  have image : ∀ t ∈ s.allList, afterExit child q status t ∈ s'.allList := fun t mem => list ▸ List.mem_map_of_mem mem
  have notInit : child.pid ≠ 1 := by
    obtain ⟨i, memi, number, none, -⟩ := fam.init
    intro same
    rw [num.unique mem memi (same.trans number.symm)] at has
    exact has none
  have alive : ∀ t ∈ s.allList, t.status ≠ .hanging → t.pid ≠ child.pid → (afterExit child q status t).status ≠ .hanging := by
    intro t _ living other
    simp only [afterExit, if_neg other]
    split
    · rintro ⟨⟩
    · exact living
  obtain ⟨i, memi, number, none, living⟩ := fam.init
  have initAlive := alive i memi living (by omega)
  refine ⟨⟨_, image i memi, number, ?_, initAlive⟩, fun t' mem' has' => ?_, fun t' mem' none' => ?_⟩
  · simp only [afterExit, none]
    exact if_neg (by omega)
  all_goals
    rw [list] at mem'
    obtain ⟨t, memt, rfl⟩ := List.mem_map.1 mem'
  · by_cases adopted : t.parentPid = child.pid
    · refine ⟨_, image i memi, ?_, initAlive⟩
      simp only [afterExit, if_pos adopted, number]
      rfl
    · simp only [afterExit, if_neg adopted] at has' ⊢
      obtain ⟨p, memp, numberp, livingp⟩ := fam.parent t memt has'
      have other : p.pid ≠ child.pid := by
        intro same
        rw [same] at numberp
        exact adopted numberp.symm
      exact ⟨_, image p memp, numberp, alive p memp livingp other⟩
  · have same : t.parentPid = -1 := by
      simp only [afterExit] at none'
      split at none'
      · omega
      · exact none'
    exact fam.orphans t memt same

/-- The caller had not exited before. -/
theorem Traced.exit (tr : Traced s h) (num : Numbered s) {child q : TaskStruct} {status : Int} (mem : child ∈ s.allList)
    (memq : q ∈ s.allList) (runs : child.status = .running) (list : s'.allList = s.allList.map (afterExit child q status)) :
    Traced s' { h with exited := ⟨h.serial child.pid, child.pid, int8 status⟩ :: h.exited } := by
  have fresh := tr.alive child mem (by rw [runs]; nofun)
  have back : ∀ t' ∈ s'.allList, ∃ t ∈ s.allList, afterExit child q status t = t' := fun t' mem' => by
    rw [list] at mem'
    exact List.mem_map.1 mem'
  refine ⟨fun t' mem' => ?_, fun t' mem' u' memu' => ?_, fun x memx => ?_, ?_, fun t' mem' hang => ?_, fun t' mem' living x memx => ?_,
    fun x memx => List.mem_cons_of_mem _ (tr.returned x memx), tr.onceReturned, fun t' mem' => ?_⟩
  · obtain ⟨t, memt, rfl⟩ := back t' mem'
    exact tr.below t memt
  · obtain ⟨t, memt, rfl⟩ := back t' mem'
    obtain ⟨u, memu, rfl⟩ := back u' memu'
    exact tr.distinct t memt u memu
  · rcases List.mem_cons.1 memx with rfl | memx
    · exact tr.below child mem
    · exact tr.past x memx
  · rw [List.map_cons, List.nodup_cons]
    refine ⟨fun again => ?_, tr.once⟩
    obtain ⟨x, memx, same⟩ := List.mem_map.1 again
    exact fresh x memx same
  · obtain ⟨t, memt, rfl⟩ := back t' mem'
    by_cases caller : t.pid = child.pid
    · simp only [afterExit, if_pos caller]
      rw [caller]
      exact List.mem_cons_self
    · simp only [afterExit, if_neg caller] at hang ⊢
      refine List.mem_cons_of_mem _ (tr.zombie t memt ?_)
      split at hang
      · cases hang
      · exact hang
  · obtain ⟨t, memt, rfl⟩ := back t' mem'
    have caller : t.pid ≠ child.pid := by
      intro same
      simp only [afterExit, if_pos same] at living
      exact living rfl
    rcases List.mem_cons.1 memx with rfl | memx
    · exact fun same => caller (tr.distinct child mem t memt same).symm
    · refine tr.alive t memt (fun hang => living ?_) x memx
      simp only [afterExit, if_neg caller]
      split
      · rename_i woken
        rw [num.unique memt memq woken.1, woken.2] at hang
        cases hang
      · exact hang
  · obtain ⟨t, memt, rfl⟩ := back t' mem'
    exact tr.gone t memt

/-- What one step keeps. -/
structure Kinship (s : Tasks) (h : History) : Prop where
  num : Numbered s
  family : Family s
  traced : Traced s h

theorem SameTasks.kinship {f : TaskStruct → TaskStruct} (same : SameTasks s s' f) (bits : s'.pidBitmap = s.pidBitmap)
    (kin : Kinship s h) : Kinship s' h := by
  refine ⟨kin.num.of_pids ?_ bits, same.family kin.family, same.traced kin.traced⟩
  rw [same.list, List.map_map]
  exact List.map_congr_left same.pid

theorem sysFork_kinship {parent : TaskStruct} {pages : Nat} (kin : Kinship s h) (current : s.current = some parent)
    (forked : sysFork parent pages s = .ok s') : Kinship s' (observe s (.fork pages) s' h) := by
  obtain ⟨mem, runs⟩ := current_some current
  have num := sysFork_numbered kin.num forked
  have seen : observe s (.fork pages) s' h = match s'.allList[s.allList.length]? with
      | some child => { h with made := h.made + 1, serial := fun p => if p = child.pid then h.made else h.serial p }
      | none => h := by
    simp only [observe, current]
  obtain rfl | ⟨p, -, free, -, same | new⟩ := sysFork_ok forked
  · rw [seen, List.getElem?_eq_none (Nat.le_refl _)]
    exact kin
  · rw [seen, same, List.getElem?_eq_none (Nat.le_refl _)]
    have copy : SameTasks s s' id :=
      ⟨by rw [same, List.map_id], fun _ _ => rfl, fun _ _ => rfl, fun _ _ => rfl, fun _ _ => rfl, fun _ _ => .rfl⟩
    exact ⟨num, copy.family kin.family, copy.traced kin.traced⟩
  · have unused : ∀ t ∈ s.allList, t.pid ≠ p := by
      rintro t memt rfl
      exact free (kin.num.taken t memt).2
    rw [seen, new, List.getElem?_append_right (Nat.le_refl _), Nat.sub_self]
    exact ⟨num, kin.family.fork mem runs new, kin.traced.fork unused new⟩

theorem sysWait_kinship {parent : TaskStruct} (kin : Kinship s h) (current : s.current = some parent) :
    Kinship (sysWait parent s) (observe s .wait (sysWait parent s) h) := by
  obtain ⟨mem, runs⟩ := current_some current
  have back : ∀ u : Tasks, SameTasks u (u.update parent.pid fun t => { t with inWait := false }) _ := fun u =>
    sameTasks_update (fun _ => ⟨rfl, rfl, rfl, rfl⟩) fun _ _ _ => .rfl
  simp only [observe, current]
  unfold sysWait waitReturns
  dsimp only
  split
  · rename_i child found
    have memc := List.mem_of_find?_eq_some found
    have hang : child.status = .hanging := by
      have := List.find?_some found
      simp only [decide_eq_true_eq] at this
      exact this.2
    rw [found]
    exact (back _).kinship rfl ⟨threadExit_numbered kin.num memc, kin.family.reap kin.num memc hang, kin.traced.reap memc hang⟩
  · rename_i none
    rw [none]
    split
    · exact (back _).kinship rfl kin
    · have blocked : SameTasks s (threadBlock s parent.pid .waiting) _ :=
        sameTasks_update (fun _ => ⟨rfl, rfl, rfl, rfl⟩) fun t memt same => by
          rw [kin.num.unique memt mem same, runs]
          exact iff_of_false (by rintro ⟨⟩) (by rintro ⟨⟩)
      have entered : SameTasks (threadBlock s parent.pid .waiting)
          ((threadBlock s parent.pid .waiting).update parent.pid fun t => { t with inWait := true }) _ :=
        sameTasks_update (fun _ => ⟨rfl, rfl, rfl, rfl⟩) fun _ _ _ => .rfl
      exact (blocked.trans entered).kinship rfl kin

theorem sysExit_kinship {child : TaskStruct} {status : Int} (kin : Kinship s h) (current : s.current = some child)
    (exited : sysExit child status s = .ok s') : Kinship s' (observe s (.exit status) s' h) := by
  obtain ⟨mem, runs⟩ := current_some current
  have has : child.parentPid ≠ -1 := by
    simp only [sysExit, bind_ok, assertThat_ok, exists_const] at exited
    exact exited.1
  obtain ⟨bits, q, memq, -, list⟩ := sysExit_ok exited
  have pids : s'.allList.map TaskStruct.pid = s.allList.map TaskStruct.pid := by
    rw [list]
    exact pids_map (fun _ => by rfl) _
  simp only [observe, current]
  exact ⟨kin.num.of_pids pids bits, kin.family.exit kin.num mem has list, kin.traced.exit kin.num mem memq runs list⟩

/-- One step keeps the families together and the history straight. -/
theorem act_kinship {a : Action} (kin : Kinship s h) (acted : act s a = .ok s') : Kinship s' (observe s a s' h) := by
  cases a with
  | schedule pid =>
    obtain ⟨f, same⟩ := sameTasks_schedule kin.num acted
    have seen : observe s (.schedule pid) s' h = h := by
      unfold observe
      cases s.current <;> rfl
    rw [seen]
    exact same.kinship (schedule_ok acted).2.1 kin
  | fork pages =>
    simp only [act] at acted
    split at acted
    · exact (throw_ok.1 acted).elim
    · rename_i t current
      simp only [bind_ok, defined_ok, exists_const] at acted
      exact sysFork_kinship kin current acted.2
  | wait =>
    simp only [act] at acted
    split at acted
    · exact (throw_ok.1 acted).elim
    · rename_i t current
      simp only [bind_ok, defined_ok, pure_ok, exists_const] at acted
      obtain ⟨-, rfl⟩ := acted
      exact sysWait_kinship kin current
  | exit status =>
    simp only [act] at acted
    split at acted
    · exact (throw_ok.1 acted).elim
    · rename_i t current
      simp only [bind_ok, defined_ok, exists_const] at acted
      exact sysExit_kinship kin current acted.2

/-- `pid2thread` finds the parent of a process. -/
theorem Family.pid2thread (fam : Family s) (num : Numbered s) (mem : t ∈ s.allList) (user : t.user = true) (notInit : t.pid ≠ 1) :
    ∃ p, pid2thread s t.parentPid = some p ∧ p.status ≠ .hanging := by
  have has : t.parentPid ≠ -1 := by
    intro none
    rcases fam.orphans t mem none with isInit | kernel
    · exact notInit isInit
    · rw [user] at kernel
      cases kernel
  obtain ⟨p, memp, number, alive⟩ := fam.parent t mem has
  unfold Reap.pid2thread
  cases found : s.allList.find? fun u => (u.pid : Int) = t.parentPid with
  | none =>
    have := List.find?_eq_none.1 found p memp
    simp [number] at this
  | some q =>
    have isParent := List.find?_some found
    simp only [decide_eq_true_eq] at isParent
    have same : q = p := num.unique (List.mem_of_find?_eq_some found) memp (by omega)
    exact ⟨q, rfl, same ▸ alive⟩

/-- A process can exit. -/
theorem Family.exits (fam : Family s) (mem : t ∈ s.allList) (user : t.user = true) (notInit : t.pid ≠ 1) (status : Int) :
    ∃ s', sysExit t status s = .ok s' := by
  have has : t.parentPid ≠ -1 := by
    intro none
    rcases fam.orphans t mem none with isInit | kernel
    · exact notInit isInit
    · rw [user] at kernel
      cases kernel
  unfold sysExit
  simp only [assertThat_of has, ok_bind]
  split
  · rename_i none
    exfalso
    obtain ⟨p, memp, number⟩ : ∃ p ∈ s.allList, (p.pid : Int) = if t.parentPid = t.pid then 1 else t.parentPid := by
      by_cases self : t.parentPid = t.pid
      · obtain ⟨i, memi, number, -⟩ := fam.init
        exact ⟨i, memi, by rw [if_pos self, number]; rfl⟩
      · obtain ⟨p, memp, number, -⟩ := fam.parent t mem has
        exact ⟨p, memp, by rw [if_neg self, number]⟩
    have image : p.pid ∈ (initAdopt (s.update t.pid fun t => { t with exitStatus := int8 status }) t.pid).allList.map
        TaskStruct.pid := by
      rw [pids_initAdopt, pids_update fun _ => by rfl]
      exact List.mem_map_of_mem memp
    obtain ⟨u, memu, same⟩ := List.mem_map.1 image
    have := List.find?_eq_none.1 none u memu
    rw [same, number] at this
    simp at this
  · exact ⟨_, rfl⟩

end Steps

theorem bootTasks_kinship : Kinship bootTasks History.boot := by
  refine ⟨bootTasks_numbered, ⟨⟨_, List.mem_cons_self, rfl, rfl, by rintro ⟨⟩⟩, fun t mem has => ?_, fun t mem none => ?_⟩, ?_⟩
  · simp only [bootTasks, List.mem_cons, List.not_mem_nil, or_false] at mem
    obtain rfl | rfl | rfl := mem <;> exact absurd rfl has
  · simp only [bootTasks, List.mem_cons, List.not_mem_nil, or_false] at mem
    obtain rfl | rfl | rfl := mem <;> decide
  · refine ⟨by decide, by decide, by rintro _ ⟨⟩, List.nodup_nil, fun t mem hang => ?_, fun _ _ _ _ h => absurd h List.not_mem_nil, by rintro _ ⟨⟩,
      List.nodup_nil, fun _ _ _ h => absurd h List.not_mem_nil⟩
    simp only [bootTasks, List.mem_cons, List.not_mem_nil, or_false] at mem
    obtain rfl | rfl | rfl := mem <;> cases hang

/-- **Parents are alive and children are returned once.** Along every interleaving of
forks, waits and exits, the parent of a process other than `init` is found and has not
exited, so that its own exit finds it, too; the numbers of the tasks are different; every
`sys_wait` that returns, returns the number and the status of a process that exited, and no
process is returned twice. -/
theorem parents_alive {s : Tasks} {h : History} (run : TracedRun (bootTasks, History.boot) (s, h)) :
    (∀ t ∈ s.allList, t.user = true → t.pid ≠ 1 →
      (∃ p ∈ s.allList, pid2thread s t.parentPid = some p ∧ ∀ x ∈ h.exited, x.serial ≠ h.serial p.pid) ∧
      ∀ status, ∃ s', sysExit t status s = .ok s') ∧
    (s.allList.map TaskStruct.pid).Nodup ∧
    (∀ x ∈ h.returned, x ∈ h.exited) ∧ (h.exited.map Report.serial).Nodup ∧ (h.returned.map Report.serial).Nodup := by
  have kin : ∀ x : Tasks × History, TracedRun (bootTasks, History.boot) x → Kinship x.1 x.2 := by
    intro x run
    induction run with
    | refl => exact bootTasks_kinship
    | tail _ step ih =>
      obtain ⟨a, acted, seen⟩ := step
      rw [seen]
      exact act_kinship ih acted
  obtain ⟨num, fam, tr⟩ := kin (s, h) run
  refine ⟨fun t mem user notInit => ⟨?_, fam.exits mem user notInit⟩, num.distinct, tr.returned, tr.once, tr.onceReturned⟩
  obtain ⟨p, found, alive⟩ := fam.pid2thread num mem user notInit
  have memp := List.mem_of_find?_eq_some found
  exact ⟨p, memp, found, tr.alive p memp alive⟩

/-- Take the steps one after another and write them down. -/
def runTraced : List Action → Tasks × History → Exec (Tasks × History)
  | [], x => return x
  | a :: rest, x => do
    let s' ← act x.1 a
    runTraced rest (s', observe x.1 a s' x.2)

theorem runTraced_run {x' : Tasks × History} : ∀ actions x, runTraced actions x = .ok x' → TracedRun x x' := by
  intro actions
  induction actions with
  | nil =>
    intro x h
    rw [runTraced, pure_ok] at h
    rw [h]
  | cons a rest ih =>
    intro x h
    simp only [runTraced, bind_ok] at h
    obtain ⟨s1, acted, h⟩ := h
    exact .head ⟨a, acted, rfl⟩ (ih _ h)

/-- `init` makes two processes one after another, each with the number 4, and waits for both. -/
def reuseNumber : List Action :=
  [.schedule 1, .fork 4, .schedule 4, .exit 7, .schedule 1, .wait, .fork 4, .schedule 4, .exit 8, .schedule 1, .wait]

theorem parents_alive_reuse :
    ∃ s h, TracedRun (bootTasks, History.boot) (s, h) ∧ h.returned = [⟨4, 4, 8⟩, ⟨3, 4, 7⟩] ∧
      (∀ x ∈ h.returned, x ∈ h.exited) ∧ (h.returned.map Report.serial).Nodup := by
  have ran : returns (runTraced reuseNumber (bootTasks, History.boot))
      (fun x => decide (x.2.returned = [⟨4, 4, 8⟩, ⟨3, 4, 7⟩])) = true := by decide
  obtain ⟨⟨s, h⟩, ran, reports⟩ := returns_true.1 ran
  have run := runTraced_run _ _ ran
  obtain ⟨-, -, exited, -, once⟩ := parents_alive run
  exact ⟨s, h, run, by simpa using reports, exited, once⟩

end Sparrow.Reap
