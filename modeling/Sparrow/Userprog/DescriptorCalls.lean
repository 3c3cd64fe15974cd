import Mathlib.Algebra.Group.Int.Defs
import Sparrow.Userprog.Boot
import Sparrow.Userprog.PipeTransfer

/-!
# Descriptors that name nothing

`sys_read`, `sys_write`, `sys_lseek` and `sys_close` of `fs/fs.c` look at their descriptor in
different ways before `fd_local2global` indexes the table of the task with it. A descriptor
that names no open file is refused by some of them in some cases; `descriptors_refused` says
in which.
-/

namespace Sparrow
set_option autoImplicit false

/-- The entry of the descriptor is the number of a slot. -/
def NamesSlot (σ : Sys) (pid : Nat) (fd : Int) : Prop :=
  0 ≤ (σ.procs pid).fdTable fd.toNat ∧ (σ.procs pid).fdTable fd.toNat < maxFileOpen

/-- The slot of the file table the descriptor names. -/
def slotOf (σ : Sys) (pid : Nat) (fd : Int) : Nat := ((σ.procs pid).fdTable fd.toNat).toNat

/-- No open file is behind the descriptor: it is no index of the table, or its entry is free,
or the slot it names is. -/
def NoFile (σ : Sys) (pid : Nat) (fd : Int) : Prop :=
  fd < 0 ∨ (maxFilesOpenPerProc : Int) ≤ fd ∨ (σ.procs pid).fdTable fd.toNat = -1 ∨
    NamesSlot σ pid fd ∧ (σ.fs.fileTable (slotOf σ pid fd)).fdInode = .null

section Refused

variable {part : Partition} {pid count : Nat} {σ : Sys} {fd : Int} {buf : Image}

/-- A descriptor that gets past `fd_local2global` with no open file behind it names a free slot. -/
theorem NoFile.null (none : NoFile σ pid fd) (pos : 0 ≤ fd) {g : Nat}
    (ran : fdLocal2Global (σ.procs pid).fdTable fd.toNat = .ok g) :
    fd < maxFilesOpenPerProc ∧ NamesSlot σ pid fd ∧ slotOf σ pid fd = g ∧ (σ.fs.fileTable g).fdInode = .null := by
  obtain ⟨inside, names, is⟩ := fdLocal2Global_iff.1 ran
  have lt : fd < maxFilesOpenPerProc := by omega
  have here : slotOf σ pid fd = g := is
  refine ⟨lt, names, here, ?_⟩
  obtain neg | high | free | ⟨-, null⟩ := none
  · omega
  · omega
  · omega
  · rw [← here]
    exact null

/-- **`sys_close`** of such a descriptor. -/
theorem sysClose_iff : sysClose pid σ fd = .ok (-1, σ) ↔ fd ≤ 2 := by
  constructor
  · intro h
    by_contra high
    rw [sysClose, if_neg high] at h
    simp only [bind_ok, pure_ok] at h
    obtain ⟨g, -, s, -, e⟩ := h
    cases e
  · intro low
    rw [sysClose, if_pos low]
    rfl

/-- **`sys_lseek`** of such a descriptor. -/
theorem sysLseek_iff (none : NoFile σ pid fd) {offset : Int} {whence : Nat} :
    sysLseek pid σ fd offset whence = .ok (-1, σ) ↔ fd < 0 := by
  constructor
  · intro h
    by_contra pos
    rw [sysLseek, if_neg pos] at h
    simp only [bind_ok, assertThat_ok, exists_const] at h
    obtain ⟨-, g, ran, h⟩ := h
    obtain ⟨-, -, -, null⟩ := none.null (by omega) ran
    rw [null] at h
    exact throw_ok.1 h
  · intro neg
    rw [sysLseek, if_pos neg]
    rfl

/-- **`sys_write`** to such a descriptor. -/
theorem sysWrite_iff (none : NoFile σ pid fd) : sysWrite part pid σ fd buf count = .ok (-1, σ) ↔
    fd < 0 ∨ fd ≠ 1 ∧ fd < maxFilesOpenPerProc ∧ NamesSlot σ pid fd ∧ isPipe σ.fs (slotOf σ pid fd) = false ∧
      ¬ ForWrite (σ.fs.fileTable (slotOf σ pid fd)).fdFlag := by
  by_cases neg : fd < 0
  · refine ⟨fun _ => .inl neg, fun _ => ?_⟩
    rw [sysWrite, if_pos neg]
    rfl
  rw [sysWrite, if_neg neg]
  constructor
  · intro h
    simp only [bind_ok] at h
    obtain ⟨g, ran, h⟩ := h
    obtain ⟨inside, names, rfl, null⟩ := none.null (by omega) ran
    split at h
    · simp only [pipeWrite, bind_ok, defined_ok, exists_const] at h
      rw [null] at h
      exact absurd h.1 (by decide)
    rename_i notPipe
    split at h
    · simp only [consoleWrite, bind_ok, defined_ok, pure_ok, exists_const] at h
      obtain ⟨-, e⟩ := h
      have := congrArg Prod.fst e
      omega
    rename_i notScreen
    refine .inr ⟨notScreen, inside, names, by simpa using notPipe, fun writes => ?_⟩
    rw [sysWriteFile, if_pos writes] at h
    simp only [fileWrite, null, bind_ok] at h
    obtain ⟨_, h, -⟩ := h
    exact throw_ok.1 h
  · rintro (no | ⟨notScreen, inside, names, notPipe, reads⟩)
    · exact absurd no neg
    have ran : fdLocal2Global (σ.procs pid).fdTable fd.toNat = .ok (slotOf σ pid fd) :=
      fdLocal2Global_iff.2 ⟨by omega, names, rfl⟩
    rw [ran, ok_bind, if_neg (by rw [notPipe]; decide), if_neg notScreen, sysWriteFile, if_neg reads]
    rfl

/-- **`sys_read`** from such a descriptor. -/
theorem sysRead_iff (none : NoFile σ pid fd) {kbdBuf : Ioqueue} (wf : kbdBuf.InRange) {dst : Image} :
    sysRead pid σ kbdBuf fd (some dst) count = .ok (-1, dst, kbdBuf, σ) ↔
      fd < 0 ∨ fd = 1 ∨ fd = 2 ∨ fd = 0 ∧ count = 0 ∧ NamesSlot σ pid fd ∧ isPipe σ.fs (slotOf σ pid fd) = false := by
  by_cases early : fd < 0 ∨ fd = 1 ∨ fd = 2
  · refine ⟨fun _ => ?_, fun _ => ?_⟩
    · rcases early with neg | one | two
      · exact .inl neg
      · exact .inr (.inl one)
      · exact .inr (.inr (.inl two))
    · rw [sysRead, if_pos early]
      rfl
  rw [sysRead, if_neg early]
  constructor
  · intro h
    simp only [bind_ok] at h
    obtain ⟨g, ran, h⟩ := h
    obtain ⟨inside, names, rfl, null⟩ := none.null (by omega) ran
    split at h
    · simp only [pipeRead, bind_ok, defined_ok, exists_const] at h
      obtain ⟨_, ⟨isPipe, -⟩, -⟩ := h
      rw [null] at isPipe
      cases isPipe
    rename_i notPipe
    split at h
    · rename_i keyboard
      simp only [bind_ok, pure_ok, Prod.exists] at h
      obtain ⟨bytes, kbdBuf', all, e⟩ := h
      -- keys that were read are missing
      obtain ⟨-, length⟩ := ioqGetAll_ok count wf all
      have same : kbdBuf' = kbdBuf := congrArg (fun x => x.2.2.1) e
      rw [same] at length
      exact .inr (.inr (.inr ⟨keyboard, by omega, names, by simpa using notPipe⟩))
    · simp only [fileRead, null, bind_ok, Prod.exists] at h
      obtain ⟨_, _, _, h, -⟩ := h
      exact (throw_ok.1 h).elim
  · rintro (neg | one | two | ⟨rfl, rfl, names, notPipe⟩)
    · exact absurd (.inl neg) early
    · exact absurd (.inr (.inl one)) early
    · exact absurd (.inr (.inr two)) early
    have ran : fdLocal2Global (σ.procs pid).fdTable (Int.toNat 0) = .ok (slotOf σ pid 0) :=
      fdLocal2Global_iff.2 ⟨by decide, names, rfl⟩
    rw [ran, ok_bind, if_neg (by rw [notPipe]; decide), if_pos rfl]
    have nothing : splice dst 0 0 (fun i => ([] : List Byte).getD i 0#8) = dst :=
      funext fun x => splice_out (by omega)
    rw [ioqGetAll, show (pure ([], kbdBuf) : Exec (List Byte × Ioqueue)) = .ok ([], kbdBuf) from rfl, ok_bind]
    dsimp only
    rw [nothing, if_pos rfl]
    rfl

/-- Which of the four calls refuse a descriptor with no open file behind it. -/
theorem descriptors_refused (none : NoFile σ pid fd) {kbdBuf : Ioqueue} (wf : kbdBuf.InRange) {dst : Image} {offset : Int}
    {whence : Nat} :
    (sysRead pid σ kbdBuf fd (some dst) count = .ok (-1, dst, kbdBuf, σ) ↔
      fd < 0 ∨ fd = 1 ∨ fd = 2 ∨ fd = 0 ∧ count = 0 ∧ NamesSlot σ pid fd ∧ isPipe σ.fs (slotOf σ pid fd) = false) ∧
    (sysWrite part pid σ fd buf count = .ok (-1, σ) ↔
      fd < 0 ∨ fd ≠ 1 ∧ fd < maxFilesOpenPerProc ∧ NamesSlot σ pid fd ∧ isPipe σ.fs (slotOf σ pid fd) = false ∧
        ¬ ForWrite (σ.fs.fileTable (slotOf σ pid fd)).fdFlag) ∧
    (sysLseek pid σ fd offset whence = .ok (-1, σ) ↔ fd < 0) ∧ (sysClose pid σ fd = .ok (-1, σ) ↔ fd ≤ 2) :=
  ⟨sysRead_iff none wf, sysWrite_iff none, sysLseek_iff none, sysClose_iff⟩

end Refused

section Examples

/-- The first task after the start: -1 is refused by all four calls, and 3 names nothing. -/
theorem descriptors_refused_boot : ∃ part s, formatAndMount (fun _ => 0#8) 1 620 = .ok (part, s) ∧
    sysRead 1 (bootSys s) ioqueueInit (-1) (some zeros) 5 = .ok (-1, zeros, ioqueueInit, bootSys s) ∧
    sysWrite part 1 (bootSys s) (-1) zeros 5 = .ok (-1, bootSys s) ∧ sysLseek 1 (bootSys s) (-1) 0 1 = .ok (-1, bootSys s) ∧
    sysClose 1 (bootSys s) (-1) = .ok (-1, bootSys s) := by
  have ran : returns (formatAndMount (fun _ => 0#8) 1 620) (fun _ => true) = true := by decide
  obtain ⟨⟨part, s⟩, formatted, -⟩ := returns_true.1 ran
  obtain ⟨reads, writes, seeks, closes⟩ := @descriptors_refused part 1 5 (bootSys s) (-1) zeros (.inl (by decide)) ioqueueInit
    ioqueueInit_inRange zeros 0 1
  exact ⟨part, s, formatted, reads.2 (.inl (by decide)), writes.2 (.inl (by decide)), seeks.2 (by decide), closes.2 (by decide)⟩

/-- Closing descriptor 3, which is free, fails an assertion. -/
theorem sysClose_free : ¬ ∀ (pid : Nat) (σ : Sys) (fd : Int), NoFile σ pid fd → sysClose pid σ fd = .ok (-1, σ) := by
  intro claim
  have free : NoFile (bootSys onePipe.fs) 1 3 := .inr (.inr (.inl rfl))
  exact absurd (sysClose_iff.1 (claim 1 _ 3 free)) (by decide)

end Examples

end Sparrow
