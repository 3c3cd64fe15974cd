import Mathlib.Algebra.Order.BigOperators.Ring.Finset
import Mathlib.Order.Interval.Finset.Nat
import Sparrow.Userprog.Descriptors

/-!
# Counting the descriptors of a pipe

A pipe uses `fd_pos` of its slot to count the descriptors that refer to it: `sys_pipe` starts
with 2, `sys_fork` adds those of the new process, a close or an exit takes them away, and the
last one frees the page. `Counted s refs` says that the file table agrees with the numbers
`refs`, and each function is shown to change both in the same way.

`sys_pipe` does not look at whether both descriptors could be installed, so the count is
right only as long as every caller has room for two.
-/

namespace Sparrow
set_option autoImplicit false

/-- The slot is a pipe with its ring buffer. -/
def PipeSlot (s : Fs) (g : Nat) : Prop := (s.fileTable g).fdFlag = pipeFlag ∧ (s.fileTable g).fdInode ≠ .null

/-- How many of the descriptors `fds` of a table refer to slot `g`. -/
def tableRefs (fds : List Nat) (fdTable : Nat → Int) (g : Nat) : Nat := fds.countP fun i => decide (fdTable i = g)

/-- The descriptors of live tasks from 3 on that refer to slot `g`. -/
def pipeRefs (σ : Sys) (g : Nat) : Nat := (σ.live.map fun pid => tableRefs localFds (σ.procs pid).fdTable g).sum

/-- A slot is a pipe if and only if it is referred to, and its `fd_pos` is how often. -/
def Counted (s : Fs) (refs : Nat → Nat) : Prop :=
  ∀ g, (PipeSlot s g ↔ 0 < refs g) ∧ (PipeSlot s g → (s.fileTable g).fdPos = refs g)

/-- An entry is free, or it refers to a slot that is referred to. -/
def EntryCounted (refs : Nat → Nat) (e : Int) : Prop := e = -1 ∨ ∃ g : Nat, e = g ∧ 0 < refs g

section Table

variable {me : Option Nat} {s t : Fs} {refs : Nat → Nat} {g : Nat} {fdTable : Nat → Int}

theorem Counted.congr (h : Counted s refs) (same : t.fileTable = s.fileTable) : Counted t refs := by
  intro g
  have slot : PipeSlot t g ↔ PipeSlot s g := by rw [PipeSlot, PipeSlot, same]
  rw [slot, same]
  exact h g

theorem Counted.refs_eq {refs' : Nat → Nat} (h : Counted s refs) (same : ∀ g, refs' g = refs g) : Counted s refs' := by
  intro g
  rw [same g]
  exact h g

/-- One slot changes. -/
theorem Counted.setFile {f : File} {n : Nat} (h : Counted s refs) (slot : (f.fdFlag = pipeFlag ∧ f.fdInode ≠ .null) ↔ 0 < n)
    (pos : 0 < n → f.fdPos = n) : Counted (s.setFile g f) (Function.update refs g n) := by
  intro j
  by_cases eq : j = g
  · subst eq
    have same : (s.setFile j f).fileTable j = f := by simp [Fs.setFile]
    rw [PipeSlot, same, Function.update_self]
    exact ⟨slot, fun is => pos (slot.1 is)⟩
  · have same : (s.setFile g f).fileTable j = s.fileTable j := by simp [Fs.setFile, eq]
    rw [PipeSlot, same, Function.update_of_ne eq]
    exact h j

theorem Counted.isPipe (h : Counted s refs) (pos : 0 < refs g) : isPipe s g = true := by
  have slot := (h g).1.2 pos
  simp [Sparrow.isPipe, slot.1]

/-- One descriptor less. -/
theorem Counted.dropPipe (h : Counted s refs) (pos : 0 < refs g) (small : refs g < 2 ^ 32)
    (dropped : dropPipe s g = .ok t) : Counted t (Function.update refs g (refs g - 1)) := by
  have slot := (h g).1.2 pos
  have count := (h g).2 slot
  have less : subU32 (s.fileTable g).fdPos 1 = refs g - 1 := by
    rw [count]
    exact subU32_of_le pos small
  simp only [Sparrow.dropPipe, less] at dropped
  split at dropped
  · rename_i last
    simp only [bind_ok, assertThat_ok, pure_ok, exists_const] at dropped
    obtain ⟨-, rfl⟩ := dropped
    refine h.setFile ?_ fun more => absurd more (by omega)
    simp [last]
  · rename_i more
    rw [pure_ok] at dropped
    subst dropped
    refine h.setFile ?_ fun _ => rfl
    constructor
    · intro _
      omega
    · intro _
      exact slot

/-- `update_inode_open_cnts` for one descriptor. -/
theorem Counted.inherit {i : Nat} (h : Counted s refs) (entry : fdTable i = g) (pos : 0 < refs g)
    (small : refs g + 1 < 2 ^ 32) (ran : updateInodeOpenCnt me fdTable s i = .ok t) :
    Counted t (Function.update refs g (refs g + 1)) := by
  have slot := (h g).1.2 pos
  simp only [updateInodeOpenCnt, bind_ok, assertThat_ok, exists_const] at ran
  obtain ⟨-, ran⟩ := ran
  rw [if_neg (by omega)] at ran
  simp only [bind_ok] at ran
  obtain ⟨g', entry', ran⟩ := ran
  obtain ⟨-, -, is⟩ := fdLocal2Global_ok entry'
  have same : g' = g := by omega
  subst same
  rw [if_pos (h.isPipe pos), pure_ok] at ran
  subst ran
  refine h.setFile ⟨fun _ => Nat.succ_pos _, fun _ => slot⟩ fun _ => ?_
  show addU32 (s.fileTable g').fdPos 1 = refs g' + 1
  rw [(h g').2 slot, addU32_of_lt small]

end Table

section Loops

variable {me : Option Nat} {s t : Fs} {refs : Nat → Nat} {fdTable : Nat → Int} {fds : List Nat}

theorem tableRefs_cons {i g : Nat} : tableRefs (i :: fds) fdTable g =
    tableRefs fds fdTable g + if fdTable i = g then 1 else 0 := by
  simp [tableRefs, List.countP_cons]

/-- The loop of `update_inode_open_cnts` adds the descriptors of the table. -/
theorem Counted.inheritAll : ∀ (fds : List Nat) {s : Fs} {refs : Nat → Nat}, Counted s refs →
    (∀ i ∈ fds, EntryCounted refs (fdTable i)) → (∀ g, refs g + tableRefs fds fdTable g < 2 ^ 32) →
    fds.foldlM (updateInodeOpenCnt me fdTable) s = .ok t →
    Counted t fun g => refs g + tableRefs fds fdTable g := by
  intro fds
  induction fds with
  | nil =>
    intro s refs h _ _ ran
    rw [List.foldlM_nil, pure_ok] at ran
    rw [← ran]
    exact h
  | cons i rest ih =>
    intro s refs h entries small ran
    rw [List.foldlM_cons, bind_ok] at ran
    obtain ⟨s1, first, ran⟩ := ran
    rcases entries i List.mem_cons_self with free | ⟨g, entry, pos⟩
    · have unchanged : s1 = s := by
        simp only [updateInodeOpenCnt, bind_ok, assertThat_ok, exists_const, if_pos free, pure_ok] at first
        exact first.2.symm
      have none : ∀ g, tableRefs (i :: rest) fdTable g = tableRefs rest fdTable g := by
        intro g
        rw [tableRefs_cons, if_neg (by omega), Nat.add_zero]
      simp only [none] at small ⊢
      rw [unchanged] at ran
      exact ih h (fun j mem => entries j (List.mem_cons_of_mem _ mem)) small ran
    · have one : ∀ j, refs j + tableRefs (i :: rest) fdTable j =
          Function.update refs g (refs g + 1) j + tableRefs rest fdTable j := by
        intro j
        by_cases eq : j = g
        · subst eq
          rw [tableRefs_cons, if_pos entry, Function.update_self]
          omega
        · rw [tableRefs_cons, if_neg (by omega), Function.update_of_ne eq, Nat.add_zero]
      have next := h.inherit entry pos (by have := small g; rw [one, Function.update_self] at this; omega) first
      simp only [one] at small ⊢
      refine ih next ?_ small ran
      intro j mem
      rcases entries j (List.mem_cons_of_mem _ mem) with free | ⟨g', entry', pos'⟩
      · exact .inl free
      · refine .inr ⟨g', entry', ?_⟩
        by_cases eq : g' = g
        · subst eq
          simp
        · simpa [eq] using pos'

/-- The loop of `release_prog_resource` takes the descriptors of the table away. -/
theorem Counted.releaseAll {pid : Nat} : ∀ (fds : List Nat) {σ σ' : Sys} {refs : Nat → Nat}, Counted σ.fs refs →
    (∀ i ∈ fds, (σ.procs pid).fdTable i = -1 ∨ ∃ g : Nat, (σ.procs pid).fdTable i = g) →
    (∀ g, tableRefs fds (σ.procs pid).fdTable g ≤ refs g) → (∀ g, refs g < 2 ^ 32) →
    fds.foldlM (releaseDescriptor pid) σ = .ok σ' →
    σ'.live = σ.live ∧ σ'.procs = σ.procs ∧
      Counted σ'.fs fun g => refs g - tableRefs fds (σ.procs pid).fdTable g := by
  intro fds
  induction fds with
  | nil =>
    intro σ σ' refs h _ _ _ ran
    rw [List.foldlM_nil, pure_ok] at ran
    rw [← ran]
    exact ⟨rfl, rfl, h⟩
  | cons i rest ih =>
    intro σ σ' refs h entries enough small ran
    rw [List.foldlM_cons, bind_ok] at ran
    obtain ⟨σ1, first, ran⟩ := ran
    have later : ∀ j ∈ rest, (σ.procs pid).fdTable j = -1 ∨ ∃ g : Nat, (σ.procs pid).fdTable j = g :=
      fun j mem => entries j (List.mem_cons_of_mem _ mem)
    rcases entries i List.mem_cons_self with free | ⟨g, entry⟩
    · rw [releaseDescriptor, if_pos free, pure_ok] at first
      have none : ∀ g, tableRefs (i :: rest) (σ.procs pid).fdTable g = tableRefs rest (σ.procs pid).fdTable g := by
        intro g
        rw [tableRefs_cons, if_neg (by omega), Nat.add_zero]
      simp only [none] at enough ⊢
      rw [← first] at ran
      exact ih h later enough small ran
    · have here := enough g
      rw [tableRefs_cons, if_pos entry] at here
      have pos : 0 < refs g := by omega
      simp only [releaseDescriptor, if_neg (show (σ.procs pid).fdTable i ≠ -1 by omega), bind_ok] at first
      obtain ⟨g', entry', first⟩ := first
      obtain ⟨-, -, is⟩ := fdLocal2Global_ok entry'
      have same : g' = g := by omega
      subst same
      rw [if_pos (h.isPipe pos)] at first
      simp only [bind_ok, pure_ok] at first
      obtain ⟨s1, dropped, rfl⟩ := first
      have next := h.dropPipe pos (small g') dropped
      have one : ∀ j, refs j - tableRefs (i :: rest) (σ.procs pid).fdTable j =
          Function.update refs g' (refs g' - 1) j - tableRefs rest (σ.procs pid).fdTable j := by
        intro j
        by_cases eq : j = g'
        · subst eq
          rw [tableRefs_cons, if_pos entry, Function.update_self]
          omega
        · rw [tableRefs_cons, if_neg (by omega), Function.update_of_ne eq, Nat.add_zero]
      simp only [one]
      refine ih (σ := { σ with fs := s1 }) next later ?_ ?_ ran
      · intro j
        have := enough j
        rw [tableRefs_cons] at this
        show tableRefs rest (σ.procs pid).fdTable j ≤ _
        by_cases eq : j = g'
        · subst eq
          rw [if_pos entry] at this
          rw [Function.update_self]
          omega
        · rw [Function.update_of_ne eq]
          omega
      · intro j
        by_cases eq : j = g'
        · subst eq
          rw [Function.update_self]
          have := small j
          omega
        · rw [Function.update_of_ne eq]
          exact small j

end Loops

section References

variable {σ : Sys} {pid g : Nat}

/-- An entry of the table changes. -/
theorem tableRefs_update {fdTable : Nat → Int} {i : Nat} {e : Int} (mem : i ∈ localFds) :
    tableRefs localFds (fun j => if j = i then e else fdTable j) g + (if fdTable i = g then 1 else 0) =
      tableRefs localFds fdTable g + if e = g then 1 else 0 := by
  have cases : i = 3 ∨ i = 4 ∨ i = 5 ∨ i = 6 ∨ i = 7 := by
    simp only [localFds, maxFilesOpenPerProc, List.mem_range'_1] at mem
    omega
  have fds : localFds = [3, 4, 5, 6, 7] := rfl
  simp only [fds, tableRefs, List.countP_cons, List.countP_nil, decide_eq_true_eq]
  rcases cases with rfl | rfl | rfl | rfl | rfl
  all_goals
    simp only [if_true, Nat.reduceEqDiff, if_false]
    omega

theorem tableRefs_le {fdTable : Nat → Int} : tableRefs localFds fdTable g ≤ 5 :=
  (List.countP_le_length).trans (by decide)

/-- The references of one task and of the others. -/
theorem pipeRefs_split (live : pid ∈ σ.live) : pipeRefs σ g = tableRefs localFds (σ.procs pid).fdTable g +
    ((σ.live.erase pid).map fun p => tableRefs localFds (σ.procs p).fdTable g).sum :=
  (List.sum_map_erase (fun p => tableRefs localFds (σ.procs p).fdTable g) live).symm

theorem tableRefs_le_pipeRefs (live : pid ∈ σ.live) : tableRefs localFds (σ.procs pid).fdTable g ≤ pipeRefs σ g := by
  rw [pipeRefs_split live]
  exact Nat.le_add_right _ _

theorem pipeRefs_pos {i : Nat} (live : pid ∈ σ.live) (mem : i ∈ localFds) (entry : (σ.procs pid).fdTable i = g) :
    0 < pipeRefs σ g := by
  refine Nat.lt_of_lt_of_le ?_ (tableRefs_le_pipeRefs live)
  exact List.countP_pos_iff.2 ⟨i, mem, by simpa using entry⟩

/-- Another table for one task. -/
theorem pipeRefs_setFdTable {fdTable : Nat → Int} {s : Fs} (nodup : σ.live.Nodup) (live : pid ∈ σ.live) :
    pipeRefs ({ σ with fs := s }.setFdTable pid fdTable) g + tableRefs localFds (σ.procs pid).fdTable g =
      pipeRefs σ g + tableRefs localFds fdTable g := by
  have others : ∀ p ∈ σ.live.erase pid, ({ σ with fs := s }.setFdTable pid fdTable).procs p = σ.procs p := by
    intro p mem
    have ne := (nodup.mem_erase_iff.1 mem).1
    simp [Sys.setFdTable, Sys.setProc, ne]
  have mine : ((({ σ with fs := s }.setFdTable pid fdTable).procs pid).fdTable) = fdTable := by
    simp [Sys.setFdTable, Sys.setProc]
  have rest : ((σ.live.erase pid).map fun p =>
      tableRefs localFds (({ σ with fs := s }.setFdTable pid fdTable).procs p).fdTable g).sum =
      ((σ.live.erase pid).map fun p => tableRefs localFds (σ.procs p).fdTable g).sum := by
    refine congrArg List.sum (List.map_congr_left fun p mem => ?_)
    rw [others p mem]
  have split := @pipeRefs_split ({ σ with fs := s }.setFdTable pid fdTable) pid g live
  rw [mine] at split
  rw [split, pipeRefs_split live]
  show _ + ((σ.live.erase pid).map _).sum + _ = _
  rw [rest]
  omega

end References

/-- The system as far as it concerns pipes. -/
structure PipesCounted (σ : Sys) : Prop where
  nodup : σ.live.Nodup
  numbers : ∀ pid ∈ σ.live, 1 ≤ pid ∧ pid ≤ 1024
  entries : ∀ pid ∈ σ.live, ∀ i ∈ localFds, (σ.procs pid).fdTable i = -1 ∨ ∃ g : Nat, (σ.procs pid).fdTable i = g
  counted : Counted σ.fs (pipeRefs σ)

/-- There is room for another pipe: a slot of the file table and two descriptors. -/
def PipeRoom (σ : Sys) (pid : Nat) : Prop :=
  (getFreeSlotInGlobal σ.fs.fileTable).isSome ∧
    ∃ i ∈ localFds, ∃ j ∈ localFds, i ≠ j ∧ (σ.procs pid).fdTable i = -1 ∧ (σ.procs pid).fdTable j = -1

section Calls

variable {part : Partition} {pid : Nat} {σ σ' : Sys} {r : Int}

/-- There are at most 1024 tasks with five descriptors each. -/
theorem PipesCounted.small (h : PipesCounted σ) (g : Nat) : pipeRefs σ g ≤ 5120 := by
  have tasks : σ.live.length ≤ 1024 := by
    rw [← List.toFinset_card_of_nodup h.nodup]
    have range : σ.live.toFinset ⊆ Finset.Icc 1 1024 :=
      fun pid mem => Finset.mem_Icc.2 (h.numbers pid (List.mem_toFinset.1 mem))
    exact (Finset.card_le_card range).trans (by simp)
  have each : ∀ n ∈ σ.live.map fun pid => tableRefs localFds (σ.procs pid).fdTable g, n ≤ 5 := by
    intro n mem
    obtain ⟨pid, -, rfl⟩ := List.mem_map.1 mem
    exact tableRefs_le
  have sum := List.sum_le_card_nsmul _ 5 each
  simp only [List.length_map, nsmul_eq_mul, Nat.cast_id] at sum
  exact sum.trans (by omega)

/-- A caller of `pcb_fd_install` with a free descriptor gets one. -/
theorem pcbFdInstall_free {fdTable : Nat → Int} {i : Nat} (g : Nat) (mem : i ∈ localFds) (free : fdTable i = -1) :
    ∃ l ∈ localFds, fdTable l = -1 ∧
      pcbFdInstall fdTable g = (some l, fun j => if j = l then (g : Int) else fdTable j) := by
  simp only [pcbFdInstall]
  split
  · rename_i none
    have full := List.find?_eq_none.1 none i mem
    exact absurd (decide_eq_true free) full
  · rename_i l found
    exact ⟨l, List.mem_of_find?_eq_some found, by simpa using List.find?_some found, rfl⟩

/-- A table for one task in which every entry is free or refers to a slot. -/
theorem PipesCounted.setFdTable {s : Fs} {fdTable : Nat → Int} (h : PipesCounted σ)
    (entries : ∀ i ∈ localFds, fdTable i = -1 ∨ ∃ g : Nat, fdTable i = g)
    (counted : Counted s (pipeRefs ({ σ with fs := s }.setFdTable pid fdTable))) :
    PipesCounted ({ σ with fs := s }.setFdTable pid fdTable) := by
  refine ⟨h.nodup, h.numbers, ?_, counted⟩
  intro p live i mem
  by_cases eq : p = pid
  · subst eq
    simpa [Sys.setFdTable, Sys.setProc] using entries i mem
  · simpa [Sys.setFdTable, Sys.setProc, eq] using h.entries p live i mem

theorem PipesCounted.close {fd : Int} (h : PipesCounted σ) (live : pid ∈ σ.live) (ran : sysClose pid σ fd = .ok (r, σ')) :
    PipesCounted σ' := by
  obtain ⟨-, rfl⟩ | ⟨g, s, high, entry, closed, rfl⟩ := sysClose_ok ran
  · exact h
  · obtain ⟨lt, -, is⟩ := fdLocal2Global_ok entry
    have mem : fd.toNat ∈ localFds := by
      simp only [localFds, maxFilesOpenPerProc, List.mem_range'_1] at lt ⊢
      omega
    have pos := pipeRefs_pos live mem is
    have small := h.small g
    rw [closeSlot, if_pos (h.counted.isPipe pos)] at closed
    refine h.setFdTable ?_ ?_
    · intro i mem'
      by_cases eq : i = fd.toNat
      · exact .inl (by simp [eq])
      · simpa [eq] using h.entries pid live i mem'
    · have dropped := h.counted.dropPipe pos (by omega) closed
      refine dropped.refs_eq fun j => ?_
      have change := @pipeRefs_setFdTable σ pid j (fun i => if i = fd.toNat then -1 else (σ.procs pid).fdTable i) s
        h.nodup live
      have update := @tableRefs_update j (σ.procs pid).fdTable fd.toNat (-1) mem
      rw [if_neg (show (-1 : Int) ≠ j by omega)] at update
      by_cases eq : j = g
      · subst eq
        rw [if_pos is] at update
        rw [Function.update_self]
        omega
      · rw [if_neg (by omega)] at update
        rw [Function.update_of_ne eq]
        omega

/-- A `sys_pipe` with room gives both descriptors. -/
theorem sysPipe_room {fds : Int × Int} (room : PipeRoom σ pid) (ran : sysPipe pid σ = .ok (r, fds, σ')) :
    ∃ g, ∃ i ∈ localFds, ∃ j ∈ localFds, i ≠ j ∧ r = 0 ∧ fds = ((i : Int), (j : Int)) ∧
      getFreeSlotInGlobal σ.fs.fileTable = some g ∧
      (σ.procs pid).fdTable i = -1 ∧ (σ.procs pid).fdTable j = -1 ∧
      ∃ pipes, σ' = ({ σ with fs := σ.fs.malloc.setFile g ⟨2, pipeFlag, .pipe⟩, pipes := pipes }).setFdTable pid
        (fun k => if k = j then (g : Int) else if k = i then (g : Int) else (σ.procs pid).fdTable k) := by
  obtain ⟨-, i, mem, j, mem', ne, free, free'⟩ := room
  simp only [sysPipe] at ran
  split at ran
  · rw [throw_ok] at ran
    exact ran.elim
  · rename_i g slot
    simp only [bind_ok, mustMalloc_ok, pure_ok] at ran
    obtain ⟨s, ⟨-, rfl⟩, ran⟩ := ran
    obtain ⟨l, lmem, lfree, first⟩ := pcbFdInstall_free g mem free
    -- one of the two free descriptors is left for the second end
    have other : ∃ k ∈ localFds, (fun k => if k = l then (g : Int) else (σ.procs pid).fdTable k) k = -1 := by
      by_cases eq : i = l
      · exact ⟨j, mem', by simp [← eq, ne.symm, free']⟩
      · exact ⟨i, mem, by simp [eq, free]⟩
    obtain ⟨k, kmem, kfree⟩ := other
    obtain ⟨l', lmem', lfree', second⟩ :=
      @pcbFdInstall_free (fun k => if k = l then (g : Int) else (σ.procs pid).fdTable k) k g kmem kfree
    rw [first, second] at ran
    cases ran
    have apart : l' ≠ l := by
      intro eq
      rw [if_pos eq] at lfree'
      omega
    refine ⟨g, l, lmem, l', lmem', apart.symm, rfl, rfl, slot, lfree, by simpa [apart] using lfree', ?_⟩
    exact ⟨_, rfl⟩

theorem PipesCounted.pipe {fds : Int × Int} (h : PipesCounted σ) (live : pid ∈ σ.live) (room : PipeRoom σ pid)
    (ran : sysPipe pid σ = .ok (r, fds, σ')) : PipesCounted σ' := by
  obtain ⟨g, i, mem, j, mem', ne, -, -, slot, free, free', pipes, rfl⟩ := sysPipe_room room ran
  obtain ⟨-, -, null⟩ := getFreeSlotInGlobal_some slot
  have unused : pipeRefs σ g = 0 := by
    have notSlot : ¬ PipeSlot σ.fs g := fun is => is.2 null
    rw [(h.counted g).1] at notSlot
    omega
  refine PipesCounted.setFdTable (σ := { σ with pipes := pipes }) ⟨h.nodup, h.numbers, h.entries, h.counted⟩ ?_ ?_
  · intro k mem
    by_cases eq : k = j
    · exact .inr ⟨g, by simp [eq]⟩
    · by_cases eq' : k = i
      · exact .inr ⟨g, by simp [eq']⟩
      · simpa [eq, eq'] using h.entries pid live k mem
  · have made : Counted (σ.fs.malloc.setFile g ⟨2, pipeFlag, .pipe⟩) (Function.update (pipeRefs σ) g 2) :=
      (h.counted.congr (t := σ.fs.malloc) rfl).setFile (by simp) fun _ => rfl
    refine made.refs_eq fun k => ?_
    have change := @pipeRefs_setFdTable { σ with pipes := pipes } pid k
      (fun k => if k = j then (g : Int) else if k = i then (g : Int) else (σ.procs pid).fdTable k)
      (σ.fs.malloc.setFile g ⟨2, pipeFlag, .pipe⟩) h.nodup live
    have first := @tableRefs_update k (σ.procs pid).fdTable i g mem
    have second := @tableRefs_update k (fun k => if k = i then (g : Int) else (σ.procs pid).fdTable k) j g mem'
    rw [if_neg (by omega)] at first
    rw [if_neg ne.symm, if_neg (by omega)] at second
    have same : pipeRefs { σ with pipes := pipes } k = pipeRefs σ k := rfl
    have mine : ({ σ with pipes := pipes }.procs pid).fdTable = (σ.procs pid).fdTable := rfl
    rw [same, mine] at change
    by_cases eq : k = g
    · subst eq
      rw [if_pos rfl] at first second
      rw [Function.update_self]
      omega
    · rw [if_neg (by omega)] at first second
      rw [Function.update_of_ne eq]
      omega

/-- A new task with a copy of the table of `pid`. -/
theorem PipesCounted.fork {child : Nat} (h : PipesCounted σ) (live : pid ∈ σ.live) (fresh : child ∉ σ.live)
    (number : 1 ≤ child ∧ child ≤ 1024) (ran : sysFork pid child σ = .ok (r, σ')) : PipesCounted σ' := by
  simp only [sysFork] at ran
  split at ran
  · rw [pure_ok] at ran
    cases ran
    exact ⟨h.nodup, h.numbers, h.entries, h.counted.congr (getPages_fileTable 1 σ.fs)⟩
  simp only [bind_ok, assertThat_ok, exists_const] at ran
  obtain ⟨-, ran⟩ := ran
  have pages : (getPages 3 (getPages 1 σ.fs).2).2.fileTable = σ.fs.fileTable := by
    rw [getPages_fileTable, getPages_fileTable]
  split at ran
  · rw [pure_ok] at ran
    cases ran
    exact ⟨h.nodup, h.numbers, h.entries, h.counted.congr pages⟩
  simp only [bind_ok, pure_ok] at ran
  obtain ⟨s, inherited, ran⟩ := ran
  cases ran
  have old : ∀ p ∈ σ.live, p ≠ child := fun p mem eq => fresh (eq ▸ mem)
  refine ⟨List.nodup_cons.2 ⟨fresh, h.nodup⟩, ?_, ?_, ?_⟩
  · intro p mem
    rcases List.mem_cons.1 mem with rfl | mem
    · exact number
    · exact h.numbers p mem
  · intro p mem i fd
    rcases List.mem_cons.1 mem with rfl | mem
    · simpa [Sys.setProc] using h.entries pid live i fd
    · simpa [Sys.setProc, old p mem] using h.entries p mem i fd
  · have entries : ∀ i ∈ localFds, EntryCounted (pipeRefs σ) ((σ.procs pid).fdTable i) := by
      intro i fd
      rcases h.entries pid live i fd with free | ⟨g, entry⟩
      · exact .inl free
      · exact .inr ⟨g, entry, pipeRefs_pos live fd entry⟩
    have small : ∀ g, pipeRefs σ g + tableRefs localFds (σ.procs pid).fdTable g < 2 ^ 32 := by
      intro g
      have := h.small g
      have := @tableRefs_le g (σ.procs pid).fdTable
      omega
    have inherited : Counted s _ := (h.counted.congr pages).inheritAll localFds entries small inherited
    refine inherited.refs_eq fun g => ?_
    have mine : ((({ σ with fs := s }.setProc child { σ.procs pid with parentPid := pid }).procs child).fdTable) =
        (σ.procs pid).fdTable := by
      simp [Sys.setProc]
    have others : (σ.live.map fun p => tableRefs localFds
        ((({ σ with fs := s }.setProc child { σ.procs pid with parentPid := pid }).procs p).fdTable) g).sum =
        pipeRefs σ g := by
      refine congrArg List.sum (List.map_congr_left fun p mem => ?_)
      simp [Sys.setProc, old p mem]
    simp only [pipeRefs, List.map_cons, List.sum_cons, mine]
    rw [others]
    exact Nat.add_comm _ _

/-- Parents are no part of it. -/
theorem adopt_fdTable (p : Nat) : ((adopt pid σ).procs p).fdTable = (σ.procs p).fdTable := by
  simp only [adopt]
  split <;> rfl

theorem PipesCounted.exit (h : PipesCounted σ) (live : pid ∈ σ.live) (ran : sysExit pid σ = .ok σ') :
    PipesCounted σ' := by
  simp only [sysExit, bind_ok, assertThat_ok, defined_ok, exists_const, pure_ok] at ran
  obtain ⟨-, -, σ1, released, rfl⟩ := ran
  have refs : ∀ g, pipeRefs (adopt pid σ) g = pipeRefs σ g := by
    intro g
    refine congrArg List.sum (List.map_congr_left fun p _ => ?_)
    rw [adopt_fdTable]
  have counted : Counted (adopt pid σ).fs (pipeRefs (adopt pid σ)) := by
    intro g
    rw [refs]
    exact h.counted g
  obtain ⟨same, procs, counted⟩ := counted.releaseAll localFds
    (fun i mem => by rw [adopt_fdTable]; exact h.entries pid live i mem)
    (fun g => tableRefs_le_pipeRefs live)
    (fun g => by rw [refs]; have := h.small g; omega) released
  have erase : σ1.live.filter (· ≠ pid) = σ.live.erase pid := by
    rw [same, h.nodup.erase_eq_filter]
    refine List.filter_congr fun p _ => ?_
    by_cases eq : p = pid <;> simp [eq]
  refine ⟨?_, ?_, ?_, ?_⟩
  · show (σ1.live.filter (· ≠ pid)).Nodup
    rw [erase]
    exact h.nodup.erase pid
  · intro p mem
    have mem : p ∈ σ1.live.filter (· ≠ pid) := mem
    rw [erase] at mem
    exact h.numbers p (List.mem_of_mem_erase mem)
  · intro p mem i fd
    have mem : p ∈ σ1.live.filter (· ≠ pid) := mem
    rw [erase] at mem
    show (σ1.procs p).fdTable i = -1 ∨ ∃ g : Nat, (σ1.procs p).fdTable i = g
    rw [procs, adopt_fdTable]
    exact h.entries p (List.mem_of_mem_erase mem) i fd
  · refine counted.refs_eq fun g => ?_
    rw [refs, pipeRefs_split live, adopt_fdTable, Nat.add_sub_cancel_left]
    show ((σ1.live.filter (· ≠ pid)).map _).sum = _
    rw [erase]
    refine congrArg List.sum (List.map_congr_left fun p _ => ?_)
    show tableRefs localFds (σ1.procs p).fdTable g = _
    rw [procs, adopt_fdTable]

/-- The four calls, made by live tasks; a new process gets one of the 1024 numbers, which no
live task has. -/
def PipeCall (σ : Sys) (pid : Nat) (call : Call) : Prop :=
  pid ∈ σ.live ∧ match call with
    | .pipe | .close _ | .exit => True
    | .fork child => child ∉ σ.live ∧ 1 ≤ child ∧ child ≤ 1024
    | _ => False

/-- A `sys_pipe` has room for both ends. -/
def RoomForBoth (σ : Sys) (pid : Nat) : Call → Prop
  | .pipe => PipeRoom σ pid
  | _ => True

theorem PipesCounted.step {call : Call} (h : PipesCounted σ) (allowed : PipeCall σ pid call)
    (room : RoomForBoth σ pid call) (ran : exec part pid σ call = .ok (r, σ')) : PipesCounted σ' := by
  obtain ⟨live, among⟩ := allowed
  cases call with
  | pipe =>
    simp only [exec, bind_ok, pure_ok, Prod.exists] at ran
    obtain ⟨r', fd0, fd1, σ1, piped, ran⟩ := ran
    cases ran
    exact h.pipe live room piped
  | close fd => exact h.close live ran
  | fork child => exact h.fork live among.1 among.2 ran
  | exit =>
    simp only [exec, bind_ok, pure_ok] at ran
    obtain ⟨σ1, exited, ran⟩ := ran
    cases ran
    exact h.exit live exited
  | «open» | fdRedirect | read | write | lseek | unlink | mkdir | rmdir | opendir | readdir | closedir | getcwd | chdir | stat |
    execv => exact among.elim

theorem pipesCounted_bootSys {disk : Image} {startLba secCnt : Nat} {s : Fs}
    (formatted : formatAndMount disk startLba secCnt = .ok (part, s)) : PipesCounted (bootSys s) := by
  have none : ∀ g, pipeRefs (bootSys s) g = 0 := by
    intro g
    have each : tableRefs localFds initFdTable g = 0 := by
      refine List.countP_eq_zero.2 fun i mem => ?_
      simp only [localFds, maxFilesOpenPerProc, List.mem_range'_1] at mem
      simp only [initFdTable, if_neg (show ¬ i < 3 by omega), decide_eq_true_eq]
      omega
    simp [pipeRefs, bootSys, each]
  refine ⟨by simp [bootSys], by simp [bootSys], ?_, ?_⟩
  · intro p _ i mem
    left
    simp only [localFds, maxFilesOpenPerProc, List.mem_range'_1] at mem
    simp [bootSys, initFdTable, show ¬ i < 3 by omega]
  · intro g
    have empty : (bootSys s).fs.fileTable g = File.empty := by
      rw [show (bootSys s).fs.fileTable = s.fileTable from rfl, formatAndMount_fileTable formatted]
    have notSlot : ¬ PipeSlot (bootSys s).fs g := by
      rw [PipeSlot, empty]
      simp [File.empty]
    rw [none]
    exact ⟨⟨fun is => absurd is notSlot, fun pos => absurd pos (Nat.lt_irrefl 0)⟩, fun is => absurd is notSlot⟩

/-- In a state: `fd_pos` of every pipe is the number of its descriptors, and its
page is there if and only if there are any. -/
def PipesRight (σ : Sys) : Prop :=
  ∀ g, (PipeSlot σ.fs g → (σ.fs.fileTable g).fdPos = pipeRefs σ g) ∧ (PipeSlot σ.fs g ↔ 0 < pipeRefs σ g)

/-- **The descriptors of a pipe are counted.** Along every interleaving of pipes, forks, closes
and exits in which every `sys_pipe` has room for both ends, and such a `sys_pipe` gives both. -/
theorem pipes_counted {disk : Image} {startLba secCnt : Nat} {s : Fs}
    (formatted : formatAndMount disk startLba secCnt = .ok (part, s))
    (run : Run part (fun σ pid call _ => PipeCall σ pid call ∧ RoomForBoth σ pid call) (bootSys s) σ) :
    PipesRight σ ∧ ∀ pid, PipeRoom σ pid → ∀ r fds σ', sysPipe pid σ = .ok (r, fds, σ') →
      r = 0 ∧ fds.1 ≠ -1 ∧ fds.2 ≠ -1 := by
  have inv : PipesCounted σ := run.invariant (fun _ _ _ _ _ inv ok ran => inv.step ok.1 ok.2 ran)
    (pipesCounted_bootSys formatted)
  constructor
  · exact fun g => ⟨(inv.counted g).2, (inv.counted g).1⟩
  · intro pid room r fds σ' ran
    obtain ⟨g, i, -, j, -, -, rfl, rfl, -⟩ := sysPipe_room room ran
    refine ⟨rfl, ?_, ?_⟩
    · show (i : Int) ≠ -1
      omega
    · show (j : Int) ≠ -1
      omega

/-- A test that is true of these calls. -/
def pipeCallTest (σ : Sys) (pid : Nat) (call : Call) : Bool :=
  decide (pid ∈ σ.live) && match call with
    | .pipe | .close _ | .exit => true
    | .fork child => decide (child ∉ σ.live ∧ 1 ≤ child ∧ child ≤ 1024)
    | _ => false

theorem pipeCallTest_sound {call : Call} (h : pipeCallTest σ pid call = true) : PipeCall σ pid call := by
  cases call <;> simp_all [pipeCallTest, PipeCall]

instance : Decidable (PipeRoom σ pid) := inferInstanceAs (Decidable (_ ∧ _))

def roomTest (σ : Sys) (pid : Nat) : Call → Bool
  | .pipe => decide (PipeRoom σ pid)
  | _ => true

theorem roomTest_sound {call : Call} (h : roomTest σ pid call = true) : RoomForBoth σ pid call := by
  cases call with
  | pipe =>
    have room : PipeRoom σ pid := of_decide_eq_true h
    exact room
  | _ => trivial

/-- A child inherits a pipe, closes one end and exits. -/
theorem pipes_counted_child : ∃ part s σ, formatAndMount (fun _ => 0#8) 1 620 = .ok (part, s) ∧
    Run part (fun σ pid call _ => PipeCall σ pid call ∧ RoomForBoth σ pid call) (bootSys s) σ ∧
    (σ.fs.fileTable 3).fdPos = 2 ∧ PipesRight σ := by
  have ran : returns (freshRun 620 (fun σ pid call _ => pipeCallTest σ pid call && roomTest σ pid call)
      [(1, .pipe), (1, .fork 3), (3, .close 3), (3, .exit)])
      (fun x => decide ((x.2.fs.fileTable 3).fdPos = 2)) = true := by decide
  obtain ⟨⟨part, σ⟩, ran, reached⟩ := returns_true.1 ran
  obtain ⟨s, formatted, ran⟩ := freshRun_ok ran
  have run : Run part (fun σ pid call _ => PipeCall σ pid call ∧ RoomForBoth σ pid call) (bootSys s) σ := by
    refine runCalls_run (fun _ _ _ _ test => ?_) _ _ ran
    rw [Bool.and_eq_true] at test
    exact ⟨pipeCallTest_sound test.1, roomTest_sound test.2⟩
  exact ⟨part, s, σ, formatted, run, of_decide_eq_true reached, (pipes_counted formatted run).1⟩

/-- The third pipe of a process gets one descriptor and counts two. -/
theorem third_pipe_miscounted :
    ¬ ∀ (disk : Image) (startLba secCnt : Nat) (part : Partition) (s : Fs) (σ : Sys),
      formatAndMount disk startLba secCnt = .ok (part, s) →
      Run part (fun σ pid call _ => PipeCall σ pid call) (bootSys s) σ → PipesRight σ := by
  intro claim
  have ran : returns (freshRun 620 (fun σ pid call _ => pipeCallTest σ pid call) [(1, .pipe), (1, .pipe), (1, .pipe)])
      (fun x => decide ((x.2.fs.fileTable 5).fdFlag = pipeFlag ∧ (x.2.fs.fileTable 5).fdInode ≠ .null ∧
        (x.2.fs.fileTable 5).fdPos = 2 ∧ pipeRefs x.2 5 = 1)) = true := by decide
  obtain ⟨⟨part, σ⟩, ran, reached⟩ := returns_true.1 ran
  obtain ⟨s, formatted, ran⟩ := freshRun_ok ran
  obtain ⟨flag, page, pos, refs⟩ := of_decide_eq_true reached
  have right := claim _ _ _ part s σ formatted (runCalls_run (fun _ _ _ _ => pipeCallTest_sound) _ _ ran)
  have count := (right 5).1 ⟨flag, page⟩
  rw [pos, refs] at count
  cases count

end Calls

end Sparrow
