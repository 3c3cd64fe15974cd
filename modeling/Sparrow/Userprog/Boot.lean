import Sparrow.Fs.Cache
import Sparrow.Fs.Format
import Sparrow.Userprog.Process

/-!
# Starting the system

The tasks of a system that just started on a partition just formatted, and a way to make
a given list of calls on it.
-/

namespace Sparrow
set_option autoImplicit false

/-- The descriptor table of a new task. -/
def initFdTable : Nat → Int := fun i => if i < 3 then i else -1

/-- The system as it starts: process 1 is `init`, task 2 the main thread. -/
def bootSys (s : Fs) : Sys where
  fs := s
  procs := fun pid => ⟨decide (pid = 1), -1, initFdTable, 0⟩
  live := [1, 2]
  dirs := []
  nextDir := 1
  pipes := fun _ => ioqueueInit
  console := []

/-- Make the calls on a small blank disk after formatting it. -/
def freshRun (secCnt : Nat) (ok : Sys → Nat → Call → Int → Bool) (calls : List (Nat × Call)) : Exec (Partition × Sys) := do
  let (part, s) ← formatAndMount (fun _ => 0#8) 1 secCnt
  let σ ← runCalls part ok calls (bootSys s)
  return (part, σ)

/-- The file `/f`. -/
def pathF : List Byte := [slash, 0x66#8]

theorem freshRun_ok {secCnt : Nat} {ok : Sys → Nat → Call → Int → Bool} {calls : List (Nat × Call)}
    {part : Partition} {σ : Sys} (h : freshRun secCnt ok calls = .ok (part, σ)) :
    ∃ s, formatAndMount (fun _ => 0#8) 1 secCnt = .ok (part, s) ∧ runCalls part ok calls (bootSys s) = .ok σ := by
  simp only [freshRun, bind_ok, pure_ok, Prod.exists] at h
  obtain ⟨part', s, formatted, σ', ran, h⟩ := h
  cases h
  exact ⟨s, formatted, ran⟩

/-- The partition just formatted is mounted like any other. -/
theorem formatAndMount_mounted {disk : Image} {startLba secCnt : Nat} {part : Partition} {s' : Fs}
    (h : formatAndMount disk startLba secCnt = .ok (part, s')) :
    ∃ disk' s, mountPartition disk' startLba secCnt = .ok (part, s) ∧ openRootDir part s = .ok s' := by
  simp only [formatAndMount, bind_ok, pure_ok, Prod.exists] at h
  obtain ⟨disk', -, part', s, mounted, s1, root, h⟩ := h
  cases h
  exact ⟨disk', s, mounted, root⟩

theorem formatAndMount_fileTable {disk : Image} {startLba secCnt : Nat} {part : Partition} {s : Fs}
    (h : formatAndMount disk startLba secCnt = .ok (part, s)) : s.fileTable = fun _ => File.empty := by
  simp only [formatAndMount, mountPartition, openRootDir, bind_ok, pure_ok, Prod.exists] at h
  obtain ⟨disk', -, part', s', ⟨_, -, _, -, _, -, mounted⟩, s1, ⟨addr, s2, opened, rfl⟩, h⟩ := h
  cases mounted
  cases h
  exact (inodeOpen_cacheOnly opened).fileTable

end Sparrow
