import Sparrow.Fs.Layout
import Sparrow.Userprog.PipeTransfer
import Mathlib.Data.List.TakeWhile

/-!
# Standard output on the screen and in a pipe

`sys_write` sends the bytes for descriptor 1 to the screen through a zeroed array of 1024 bytes and
`console_put_str`, which prints up to the first zero; into a pipe they go one by one. The two agree
on strings that leave room for their end in the array (`standardOutput_iff`).
-/

namespace Sparrow
set_option autoImplicit false

/-- Descriptor 1 of the task is the screen. -/
def OnScreen (σ : Sys) (pid : Nat) : Prop :=
  ∃ g, fdLocal2Global (σ.procs pid).fdTable 1 = .ok g ∧ isPipe σ.fs g = false

/-- Descriptor 1 of the task is the pipe in slot `g`. -/
def OnPipe (σ : Sys) (pid g : Nat) : Prop :=
  fdLocal2Global (σ.procs pid).fdTable 1 = .ok g ∧ isPipe σ.fs g = true ∧ (σ.fs.fileTable g).fdInode = .pipe ∧
    (σ.pipes g).InRange

/-- The first `count` bytes of the buffer. -/
def firstBytes (buf : Image) (count : Nat) : List Byte := (List.range count).map buf

/-- The call puts the bytes on the screen and returns their number. -/
def Displays (part : Partition) (σ : Sys) (pid : Nat) (buf : Image) (count : Nat) : Prop :=
  ∃ σ', sysWrite part pid σ 1 buf count = .ok (count, σ') ∧ σ'.console = σ.console ++ firstBytes buf count

/-- The call puts the bytes into the pipe and returns their number. -/
def Stores (part : Partition) (σ : Sys) (pid g : Nat) (buf : Image) (count : Nat) : Prop :=
  ∃ σ', sysWrite part pid σ 1 buf count = .ok (count, σ') ∧ (σ'.pipes g).bytes = (σ.pipes g).bytes ++ firstBytes buf count

section Output

variable {part : Partition} {σ σ' : Sys} {pid g count : Nat} {buf : Image}

theorem sysWrite_screen (screen : OnScreen σ pid) : sysWrite part pid σ 1 buf count = consoleWrite σ buf count := by
  obtain ⟨g, isGlobal, notPipe⟩ := screen
  have isGlobal' : fdLocal2Global (σ.procs pid).fdTable (1 : Int).toNat = .ok g := isGlobal
  unfold sysWrite
  rw [if_neg (by decide), isGlobal', ok_bind, if_neg (by rw [notPipe]; decide), if_pos rfl]

/-- What is printed of an array up to its first zero. -/
theorem takeWhile_range {f : Nat → Byte} {n : Nat} (inside : count < n) (noZero : ∀ i, i < count → f i ≠ 0#8)
    (stop : f count = 0#8) : ((List.range n).map f).takeWhile (· != 0#8) = (List.range count).map f := by
  obtain ⟨k, rfl⟩ : ∃ k, n = count + (k + 1) := ⟨n - count - 1, by omega⟩
  have before : ∀ b ∈ (List.range count).map f, (b != 0#8) = true := by
    intro b mem
    obtain ⟨i, lt, rfl⟩ := List.mem_map.1 mem
    simpa using noZero i (List.mem_range.1 lt)
  rw [List.range_add, List.map_append, List.takeWhile_append_of_pos before, List.range_succ_eq_map]
  simp [stop]

theorem printed_eq (short : count ≤ 1023) (noZero : ∀ i, i < count → buf i ≠ 0#8) :
    ((List.range 1024).map (splice zeros 0 count buf)).takeWhile (· != 0#8) = firstBytes buf count := by
  have copied : ∀ i, i < count → splice zeros 0 count buf i = buf i := fun i lt => by
    rw [splice_in (Nat.zero_le i) (by omega), Nat.sub_zero]
  rw [takeWhile_range (show count < 1024 by omega) (fun i lt => by rw [copied i lt]; exact noZero i lt) (splice_out (by omega))]
  exact List.map_congr_left fun i mem => copied i (List.mem_range.1 mem)

/-- **The screen shows exactly the bytes** of a string that fits the array with its end. -/
theorem displays_iff (screen : OnScreen σ pid) :
    Displays part σ pid buf count ↔ count ≤ 1023 ∧ ∀ i, i < count → buf i ≠ 0#8 := by
  unfold Displays
  rw [sysWrite_screen screen]
  constructor
  · rintro ⟨σ', ran, shown⟩
    simp only [consoleWrite, bind_ok, defined_ok, exists_const, pure_ok, Prod.mk.injEq, true_and] at ran
    obtain ⟨⟨-, ends⟩, is⟩ := ran
    rw [← is] at shown
    have same : ((List.range 1024).map (splice zeros 0 count buf)).takeWhile (· != 0#8) = firstBytes buf count :=
      List.append_cancel_left shown
    rw [same, firstBytes, List.length_map, List.length_range] at ends
    refine ⟨by omega, fun i lt => ?_⟩
    have mem : buf i ∈ firstBytes buf count := List.mem_map_of_mem (List.mem_range.2 lt)
    rw [← same] at mem
    simpa using List.mem_takeWhile_imp mem
  · rintro ⟨short, noZero⟩
    have printed := printed_eq short noZero
    have ends : count ≤ 1024 ∧ (firstBytes buf count).length < 1024 := by
      rw [firstBytes, List.length_map, List.length_range]
      omega
    refine ⟨{ σ with console := σ.console ++ firstBytes buf count }, ?_, rfl⟩
    unfold consoleWrite
    simp only [printed, defined_of ends, ok_bind]
    rfl

/-- **A pipe with room takes exactly the bytes**, whatever they are. -/
theorem stores_of_room (piped : OnPipe σ pid g) (room : count ≤ (σ.pipes g).room) : Stores part σ pid g buf count := by
  obtain ⟨isGlobal, isPipe', isRing, wf⟩ := piped
  obtain ⟨ioq, ran, -, bytes⟩ := (pipeWrite_iff isRing wf buf).2 room
  rw [Nat.min_eq_left room] at ran bytes
  have isGlobal' : fdLocal2Global (σ.procs pid).fdTable (1 : Int).toNat = .ok g := isGlobal
  refine ⟨{ σ with pipes := fun i => if i = g then ioq else σ.pipes i }, ?_, ?_⟩
  · unfold sysWrite
    rw [if_neg (by decide), isGlobal', ok_bind, if_pos isPipe', ran]
  · show (if g = g then ioq else σ.pipes g).bytes = _
    rw [if_pos rfl, bytes]
    rfl

/-- **Screen and pipe agree** on the bytes that are a string of at most 1023 bytes, and on no others. -/
theorem standardOutput_iff (screen : OnScreen σ pid) :
    (Displays part σ pid buf count ∧ ∀ σ' pid' g, OnPipe σ' pid' g → count ≤ (σ'.pipes g).room → Stores part σ' pid' g buf count) ↔
      count ≤ 1023 ∧ ∀ i, i < count → buf i ≠ 0#8 := by
  rw [← displays_iff screen]
  exact ⟨And.left, fun displays => ⟨displays, fun _ _ _ piped room => stores_of_room piped room⟩⟩

end Output

section Examples

/-- A task with the screen at descriptor 1. -/
def oneScreen : Sys := { onePipe with procs := fun _ => ⟨true, -1, fun i => i, 0⟩ }

theorem oneScreen_onScreen : OnScreen oneScreen 1 := ⟨1, rfl, rfl⟩

theorem onePipe_onPipe : OnPipe onePipe 1 3 := ⟨rfl, rfl, rfl, ioqueueInit_inRange⟩

/-- 1023 letters come out on the screen, and in a pipe. -/
theorem standardOutput_1023 : Displays (formatPartition 1 620 1) oneScreen 1 (fun _ => 0x61#8) 1023 ∧
    Stores (formatPartition 1 620 1) onePipe 1 3 (fun _ => 0x61#8) 1023 := by
  obtain ⟨displays, stores⟩ := (@standardOutput_iff (formatPartition 1 620 1) oneScreen 1 1023 (fun _ => 0x61#8) oneScreen_onScreen).2
    ⟨by decide, fun _ _ => by decide⟩
  exact ⟨displays, stores onePipe 1 3 onePipe_onPipe (by decide)⟩

/-- A chunk of 1024 letters, as `cat` writes them, fills the array, and `put_str` reads on behind it. -/
theorem standardOutput_1024 : ¬ ∀ (part : Partition) (σ : Sys) (pid : Nat) (buf : Image) (count : Nat), OnScreen σ pid →
    Displays part σ pid buf count ∧ ∀ σ' pid' g, OnPipe σ' pid' g → count ≤ (σ'.pipes g).room → Stores part σ' pid' g buf count := by
  intro claim
  have shown := claim (formatPartition 1 620 1) oneScreen 1 (fun _ => 0x61#8) 1024 oneScreen_onScreen
  have fits := ((standardOutput_iff oneScreen_onScreen).1 shown).1
  exact absurd fits (by decide)

end Examples

end Sparrow
