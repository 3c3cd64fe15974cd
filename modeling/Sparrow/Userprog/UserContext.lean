import Sparrow.Thread.Switch

/-!
# Ways back to ring 3

The frame that a system call leaves at the top of a task's page is where `sys_fork` and `sys_execv` decide how a
program goes on. The child of a fork gets a copy of its parent's page, and `build_child_stack` makes `switch_to` return to
`intr_exit` on it: the child has every register of the parent's but `eax`, which is 0 (`fork_child_returns`).
`sys_execv` changes the frame and leaves through `intr_exit` itself (`execv_starts`). All other functions of the kernel keep
the frame, even when they give up the processor and get it back any number of times (`KernelPath`), so that
neither preemption nor waiting is seen by the program (`preemption_transparent`, `waiting_returns`).
-/

namespace Sparrow.UserContext
set_option autoImplicit false
open Stack Trap Switch

/-- Where the `struct intr_stack` of a task lies that has come from ring 3. -/
def intr0Stack (task : Word) : Nat := task.toNat + 4096 - 76

/-- `memcpy(child_thread, parent_thread, PG_SIZE)`. -/
def copyPage (m : Image) (child parent : Word) : Image := splice m child.toNat 4096 (shifted m parent.toNat)

/-- `build_child_stack`, `intrExit` being the address of `intr_exit`. -/
def buildChildStack (m : Image) (child intrExit : Word) : Image :=
  let m := storeWord m (intr0Stack child + 32) 0#32
  let m := storeWord m (intr0Stack child - 4) intrExit
  let m := storeWord m (intr0Stack child - 8) 0#32
  let m := storeWord m (intr0Stack child - 12) 0#32
  let m := storeWord m (intr0Stack child - 16) 0#32
  let m := storeWord m (intr0Stack child - 20) 0#32
  storeWord m child.toNat (BitVec.ofNat 32 (intr0Stack child - 20))

/-- What `sys_execv` stores into the frame of the task at `cur`, and the stack it leaves on. -/
def execvFrame (c : Machine) (cur argv argc entryPoint : Word) : Machine :=
  let m := storeWord c.mem (intr0Stack cur + 20) argv
  let m := storeWord m (intr0Stack cur + 28) argc
  let m := storeWord m (intr0Stack cur + 56) entryPoint
  let m := storeWord m (intr0Stack cur + 68) 0xc0000000#32
  { c with mem := m, esp := BitVec.ofNat 32 (intr0Stack cur) }

/-- `_start` up to `call main`. -/
def start (c : Machine) : Machine :=
  let c := c.push c.ebx
  c.push c.ecx

/-- The task at `t` runs in the kernel, from `e` on: its functions leave alone what lies from `limit` on, and it
gives up the processor below. -/
inductive KernelPath (t : Word) (limit : Nat) (e : Machine) : Machine → Prop
  | start : KernelPath t limit e e
  | work {d d' : Machine} (before : KernelPath t limit e d)
      (keeps : ∀ x, limit ≤ x → x < t.toNat + 4096 → d'.mem x = d.mem x) : KernelPath t limit e d'
  | away {d d' : Machine} (before : KernelPath t limit e d) (below : d.esp.toNat ≤ limit) (back : Back t d d') : KernelPath t limit e d'

section Paths

variable {tss : Tss} {c d e : Machine} {t : Word} {limit args words : Nat}

/-- What a function of the kernel leaves alone is there when it returns, whichever tasks have run meanwhile. -/
theorem KernelPath.kept (path : KernelPath t limit e d) : ∀ x, limit ≤ x → x < t.toNat + 4096 → d.mem x = e.mem x := by
  induction path with
  | start => exact fun _ _ _ => rfl
  | work _ keeps ih => exact fun x low high => (keeps x low high).trans (ih x low high)
  | away _ below back ih =>
    intro x low high
    rw [back.stack (Nat.le_trans below low) high, ih x low high]

theorem KernelPath.keeps (path : KernelPath t (e.esp.toNat + 4 * args) e d) (esp : d.esp = e.esp) (ss : d.ss = e.ss)
    (inside : e.esp.toNat + 4 * (args + words) ≤ t.toNat + 4096) : Keeps args words e d :=
  ⟨esp, ss, fun x low high => path.kept x low (by omega)⟩

/-- The stack on which a program of ring 3 is served is the page of its task. -/
theorem base_user (user : IsUser c.cs) (room : t.toNat + 4096 < 2 ^ 32) (esp0 : tss.esp0 = t + 4096#32) :
    (base tss c).toNat = t.toNat + 4096 := by
  rw [base, if_pos user, esp0]
  exact Nat.mod_eq_of_lt room

/-- **Preemption is transparent.** A program of ring 3 is interrupted, the handler gives the processor to other tasks as
often as it likes, and when it returns the program has all of its registers. -/
theorem preemption_transparent {vecNo : Nat} {err : Option Word} (user : IsUser c.cs) (room : t.toNat + 4096 < 2 ^ 32)
    (esp0 : tss.esp0 = t + 4096#32) (agrees : err.isSome = stubErrorCode vecNo)
    (path : KernelPath t ((intrEntry vecNo (interrupt tss err c)).esp.toNat + 4) (intrEntry vecNo (interrupt tss err c)) d)
    (esp : d.esp = (intrEntry vecNo (interrupt tss err c)).esp) (ss : d.ss = (intrEntry vecNo (interrupt tss err c)).ss) :
    serveInterrupt tss vecNo err (fun _ => d) c = { c with mem := d.mem } := by
  have top := base_user user room esp0
  have few := frameWords_bounds c
  refine @serveInterrupt_eq tss c vecNo err (fun _ => d) agrees (by omega) (path.keeps esp ss ?_)
  rw [intrEntry_esp agrees, toNat_down (by omega)]
  omega

/-- **A system call may wait.** The task gives up the processor in it any number of times, and the program finds the
result in `eax` and every other register as before. -/
theorem waiting_returns (user : IsUser c.cs) (room : t.toNat + 4096 < 2 ^ 32) (esp0 : tss.esp0 = t + 4096#32)
    (path : KernelPath t ((syscallEntry (interrupt tss none c)).esp.toNat + 12) (syscallEntry (interrupt tss none c)) d)
    (esp : d.esp = (syscallEntry (interrupt tss none c)).esp) (ss : d.ss = (syscallEntry (interrupt tss none c)).ss) :
    ∃ m, intSyscall tss (fun _ _ => d) c = { c with eax := d.eax, mem := m } := by
  have top := base_user user room esp0
  have few := frameWords_bounds c
  obtain ⟨espDummy, -, pointer, -⟩ := @syscallEntry_stack tss c (by omega)
  obtain ⟨m, returned, -⟩ := @intSyscall_eq tss c (fun _ _ => d) (by omega) (path.keeps esp ss (by
    rw [pointer, toNat_down (by omega)]
    omega))
  exact ⟨m, returned⟩

end Paths

section Frames

variable {tss : Tss} {c d : Machine} {m m' : Image} {task child parent espDummy errCode vecNo : Word}

theorem intr0Stack_toNat (room : task.toNat + 4096 < 2 ^ 32) : (BitVec.ofNat 32 (intr0Stack task)).toNat = task.toNat + 4020 := by
  rw [BitVec.toNat_ofNat, intr0Stack]
  omega

/-- A system call of a program in ring 3 leaves its registers at the top of the task's page. -/
theorem syscall_frame (user : IsUser c.cs) (room : task.toNat + 4096 < 2 ^ 32) (esp0 : tss.esp0 = task + 4096#32) :
    ∃ espDummy, HoldsWords (syscallEntry (interrupt tss none c)).mem (intr0Stack task) (intrStack 0x80#32 0#32 espDummy c) := by
  have top : (base tss c).toNat = task.toNat + 4096 := by
    rw [base, if_pos user, esp0]
    exact Nat.mod_eq_of_lt room
  obtain ⟨espDummy, ⟨holds, -⟩, pointer, -⟩ := @syscallEntry_stack tss c (by omega)
  have place : (syscallEntry (interrupt tss none c)).esp.toNat + 4 * 3 = intr0Stack task := by
    rw [pointer, frameWords, if_pos user, toNat_down (by omega), top, intr0Stack]
    omega
  rw [← place]
  exact ⟨espDummy, (holds_append.1 holds).2⟩

/-- The frame of the parent is in the page of the child, with 0 for `eax`, and the child is ready to go on with it. -/
theorem buildChildStack_suspended {intrExit : Word} (room : child.toNat + 4096 < 2 ^ 32)
    (frame : HoldsWords m (intr0Stack child) (intrStack vecNo errCode espDummy c)) :
    Suspended (buildChildStack m child intrExit) child
        ⟨0#32, 0#32, 0#32, 0#32, intrExit, BitVec.ofNat 32 (intr0Stack child)⟩ ∧
      HoldsWords (buildChildStack m child intrExit) (intr0Stack child) (intrStack vecNo errCode espDummy { c with eax := 0#32 }) := by
  have place : intr0Stack child = child.toNat + 4000 + 20 := by
    unfold intr0Stack
    omega
  have pointer := intr0Stack_toNat room
  let m₁ := storeWord m (intr0Stack child + 32) 0#32
  have zero : HoldsWords m₁ (intr0Stack child) (intrStack vecNo errCode espDummy { c with eax := 0#32 }) :=
    @HoldsWords.set m (intr0Stack child) c.eax [vecNo, c.edi, c.esi, c.ebp, espDummy, c.ebx, c.edx, c.ecx] _ frame 0#32
  have built : buildChildStack m child intrExit =
      storeWord (storeWord (storeWord (storeWord (storeWord (storeWord m₁ (child.toNat + 4000 + 4 * 4) intrExit)
        (child.toNat + 4000 + 4 * 3) 0#32) (child.toNat + 4000 + 4 * 2) 0#32) (child.toNat + 4000 + 4 * 1) 0#32)
        (child.toNat + 4000 + 4 * 0) 0#32)
        child.toNat (BitVec.ofNat 32 (child.toNat + 4000)) := by
    rw [buildChildStack, place]
    rfl
  -- The five words of `struct thread_stack` that `switch_to` takes.
  have blank : HoldsWords m₁ (child.toNat + 4000) [_, _, _, _, _] := ⟨rfl, rfl, rfl, rfl, rfl, trivial⟩
  have eip := @HoldsWords.set _ _ _ [_, _, _, _] _ blank intrExit
  have esi := @HoldsWords.set _ _ _ [_, _, _] _ eip 0#32
  have edi := @HoldsWords.set _ _ _ [_, _] _ esi 0#32
  have ebx := @HoldsWords.set _ _ _ [_] _ edi 0#32
  have ebp := @HoldsWords.set _ _ _ [] _ ebx 0#32
  refine ⟨⟨?_, ?_, ?_, ?_⟩, ?_⟩
  · show _ = down (BitVec.ofNat 32 (intr0Stack child)) 5
    rw [built, load_store_same, place, down]
    bv_omega
  · show HoldsWords _ ((BitVec.ofNat 32 (intr0Stack child)).toNat - 20) [0#32, 0#32, 0#32, 0#32, intrExit]
    rw [pointer, built]
    exact HoldsWords.store ebp (.inr (by omega))
  · show _ ≤ (BitVec.ofNat 32 (intr0Stack child)).toNat
    omega
  · show (BitVec.ofNat 32 (intr0Stack child)).toNat ≤ _
    omega
  · rw [built]
    rw [place] at zero ⊢
    exact (((((zero.store (.inr (by omega))).store (.inr (by omega))).store (.inr (by omega))).store (.inr (by omega))).store
      (.inr (by omega))).store (.inr (by omega))

/-- The frame of the parent is there in the copy of its page. -/
theorem copyPage_frame {m₀ : Image} {ws : List Word} (holds : HoldsWords m₀ (intr0Stack parent) ws) (len : ws.length = 19)
    (copied : ∀ i, i < 76 → m (intr0Stack parent + i) = m₀ (intr0Stack parent + i))
    (kept : ∀ i, i < 76 → m' (intr0Stack child + i) = copyPage m child parent (intr0Stack child + i)) :
    HoldsWords m' (intr0Stack child) ws := by
  refine holds.copied fun i lt => ?_
  rw [len] at lt
  rw [kept i lt, ← copied i lt, copyPage, splice_in (by unfold intr0Stack; omega) (by unfold intr0Stack; omega), shifted]
  congr 1
  unfold intr0Stack
  omega

/-- The frame at the top of the page of a task that runs again on it. -/
theorem Stacked.ofResumed {ws : List Word} {k : Context} (resumed : Resumed k d) (esp : k.esp = BitVec.ofNat 32 (intr0Stack task))
    (room : task.toNat + 4096 < 2 ^ 32) (few : ws.length ≤ 19) (holds : HoldsWords d.mem (intr0Stack task) ws) : Stacked d ws := by
  rw [Stacked, resumed.esp, esp, intr0Stack_toNat room]
  refine ⟨?_, by omega⟩
  have place : intr0Stack task = task.toNat + 4020 := by
    unfold intr0Stack
    omega
  rwa [← place]

/-- **The child of a fork returns from the system call of its parent**: with 0 in `eax`, every other register being
the parent's, however late it gets the processor. Of `sys_fork` this asks that the frame of the parent be
there when its page is copied, and in the copy afterwards. -/
theorem fork_child_returns {intrExit : Word} {v : Word} (user : IsUser c.cs) (roomParent : parent.toNat + 4096 < 2 ^ 32)
    (esp0 : tss.esp0 = parent + 4096#32) (aligned : child.toNat % 4096 = 0) (room : child.toNat + 4096 < 2 ^ 32)
    (copied : ∀ i, i < 76 → m (intr0Stack parent + i) = (syscallEntry (interrupt tss none c)).mem (intr0Stack parent + i))
    (kept : ∀ i, i < 76 → m' (intr0Stack child + i) = copyPage m child parent (intr0Stack child + i)) {e : Machine}
    (others : Others child { e with mem := buildChildStack m' child intrExit } d) (back : Calls d v child) (other : v ≠ child) :
    (switchTo d).eip = intrExit ∧ Trap.intrExit (switchTo d) = { c with eax := 0#32, mem := (switchTo d).mem } := by
  obtain ⟨espDummy, holds⟩ := syscall_frame user roomParent esp0
  have len : (intrStack 0x80#32 0#32 espDummy c).length = 19 := by
    rw [intrStack_length, frameWords, if_pos user]
  have there := copyPage_frame holds len copied kept
  obtain ⟨suspended, frame⟩ := @buildChildStack_suspended c m' child espDummy 0#32 0x80#32 intrExit room there
  obtain ⟨resumed, keeps⟩ := others.resumes aligned suspended back other
  have pointer := intr0Stack_toNat room
  refine ⟨resumed.eip, ?_⟩
  have stacked : Stacked (switchTo d) (intrStack 0x80#32 0#32 espDummy { c with eax := 0#32 }) := by
    refine Stacked.ofResumed resumed rfl room (Nat.le_of_eq ?_) (frame.congr fun x low high => keeps x (.inr ⟨?_, ?_⟩))
    · rw [intrStack_length, frameWords, if_pos user]
    · rw [suspended.kstack, toNat_down (show 20 ≤ (BitVec.ofNat 32 (intr0Stack child)).toNat by omega)]
      show (BitVec.ofNat 32 (intr0Stack child)).toNat - 20 ≤ x
      unfold intr0Stack at low
      omega
    · rw [intrStack_length, frameWords, if_pos user] at high
      unfold intr0Stack at high
      omega
  exact intrExit_intrStack stacked fun kernel => absurd user kernel

/-- **`sys_execv` enters the new program** at its entry point on an empty stack, and `_start` calls `main` with
`argc` and `argv`. Every other register is the one from before the system call. -/
theorem execv_starts {argv argc entryPoint : Word} (user : IsUser c.cs) (room : task.toNat + 4096 < 2 ^ 32)
    (esp0 : tss.esp0 = task + 4096#32)
    (kept : ∀ i, i < 76 → d.mem (intr0Stack task + i) = (syscallEntry (interrupt tss none c)).mem (intr0Stack task + i)) :
    ∃ m, Trap.intrExit (execvFrame d task argv argc entryPoint) =
        { c with ebx := argv, ecx := argc, eip := entryPoint, esp := 0xc0000000#32, mem := m } ∧
      Stacked (start (Trap.intrExit (execvFrame d task argv argc entryPoint))) [argc, argv] := by
  obtain ⟨espDummy, holds⟩ := syscall_frame user room esp0
  let c' : Machine := { c with ebx := argv, ecx := argc, eip := entryPoint, esp := 0xc0000000#32 }
  have words : intrStack 0x80#32 0#32 espDummy c = [0x80#32, c.edi, c.esi, c.ebp, espDummy] ++ c.ebx :: [c.edx, c.ecx, c.eax,
      c.gs.setWidth 32, c.fs.setWidth 32, c.es.setWidth 32, c.ds.setWidth 32, 0#32, c.eip, c.cs.setWidth 32, c.eflags, c.esp,
      c.ss.setWidth 32] := by
    rw [intrStack, intrSaved, if_pos user]
    rfl
  have words' : intrStack 0x80#32 0#32 espDummy c' = [0x80#32, c.edi, c.esi, c.ebp, espDummy, argv, c.edx, argc, c.eax,
      c.gs.setWidth 32, c.fs.setWidth 32, c.es.setWidth 32, c.ds.setWidth 32, 0#32, entryPoint, c.cs.setWidth 32, c.eflags,
      0xc0000000#32, c.ss.setWidth 32] := by
    have user' : IsUser c'.cs := user
    rw [intrStack, intrSaved, if_pos user']
    rfl
  rw [words] at holds
  have there := holds.copied kept
  have ebx := @HoldsWords.set _ _ _ [_, _, _, _, _] _ there argv
  have ecx := @HoldsWords.set _ _ _ [_, _, _, _, _, _, _] _ ebx argc
  have eip := @HoldsWords.set _ _ _ [_, _, _, _, _, _, _, _, _, _, _, _, _, _] _ ecx entryPoint
  have esp := @HoldsWords.set _ _ _ [_, _, _, _, _, _, _, _, _, _, _, _, _, _, _, _, _] _ eip 0xc0000000#32
  have frame : Stacked (execvFrame d task argv argc entryPoint) (intrStack 0x80#32 0#32 espDummy c') := by
    rw [words']
    refine ⟨?_, ?_⟩
    · show HoldsWords _ (BitVec.ofNat 32 (intr0Stack task)).toNat _
      rw [intr0Stack_toNat room, ← show intr0Stack task = task.toNat + 4020 by unfold intr0Stack; omega]
      exact esp
    · show (BitVec.ofNat 32 (intr0Stack task)).toNat + 76 ≤ _
      rw [intr0Stack_toNat room]
      omega
  have entered : Trap.intrExit (execvFrame d task argv argc entryPoint) = { c' with mem := (execvFrame d task argv argc entryPoint).mem } :=
    intrExit_intrStack frame fun kernel => absurd user kernel
  refine ⟨_, entered, ?_⟩
  rw [entered]
  exact @Stacked.pushes { c' with mem := _ } [argv, argc] [] ⟨trivial, show 0xc0000000 ≤ 2 ^ 32 by decide⟩
    (show 8 ≤ 0xc0000000 by decide)

end Frames

section Examples

/-- A task that gives up the processor once, and goes back to where it was on its stack. -/
theorem path_away {e : Machine} {limit : Nat} (low : 0xc0100800 ≤ limit) :
    ∃ d, KernelPath 0xc0100000#32 limit e d ∧ d.esp = e.esp ∧ d.ss = e.ss := by
  have calls : Calls (caller e.mem 0xc0100000#32 0xc00fe000#32) 0xc0100000#32 0xc00fe000#32 := caller_calls (by decide) (by decide)
  have before : KernelPath 0xc0100000#32 limit e (caller e.mem 0xc0100000#32 0xc00fe000#32) :=
    .work .start fun x above _ => caller_mem (by decide) (.inr (Nat.le_trans low above))
  have esp := @caller_esp e.mem 0xc0100000#32 0xc00fe000#32 (by decide)
  generalize caller e.mem 0xc0100000#32 0xc00fe000#32 = c at calls before esp
  have stopped : Suspended (switchTo c).mem 0xc0100000#32 (contextOf c) := (saveTask_suspended calls).1
  have back : Back 0xc0100000#32 c (switchTo (caller (switchTo c).mem 0xc00fe000#32 0xc0100000#32)) :=
    .later calls (by decide) (others_caller stopped (by decide) (by decide)) (caller_calls (by decide) (by decide)) (by decide)
  have away := before.away (by rw [esp]; exact Nat.le_trans (by decide) low) back
  generalize switchTo (caller (switchTo c).mem 0xc00fe000#32 0xc0100000#32) = d at away
  exact ⟨{ d with esp := e.esp, ss := e.ss }, away.work fun _ _ _ => rfl, rfl, rfl⟩

theorem userProgram_base : userTss.esp0 = 0xc0100000#32 + 4096#32 := by decide

/-- The timer takes the processor away from a program. -/
theorem preemption_transparent_timer : ∃ d,
    serveInterrupt userTss 0x20 none (fun _ => d) userProgram = { userProgram with mem := d.mem } := by
  have agrees : (none : Option Word).isSome = stubErrorCode 0x20 := by decide
  have pointer := @intrEntry_esp userTss userProgram 0x20 none agrees
  obtain ⟨d, path, esp, ss⟩ := @path_away (intrEntry 0x20 (interrupt userTss none userProgram))
    ((intrEntry 0x20 (interrupt userTss none userProgram)).esp.toNat + 4) (by rw [pointer]; decide)
  exact ⟨d, preemption_transparent (by decide) (by decide) userProgram_base agrees path esp ss⟩

/-- A program waits in a system call. -/
theorem waiting_returns_once : ∃ d m,
    intSyscall userTss (fun _ _ => d) userProgram = { userProgram with eax := d.eax, mem := m } := by
  obtain ⟨-, -, pointer, -⟩ := @syscallEntry_stack userTss userProgram (by decide)
  obtain ⟨d, path, esp, ss⟩ := @path_away (syscallEntry (interrupt userTss none userProgram))
    ((syscallEntry (interrupt userTss none userProgram)).esp.toNat + 12) (by rw [pointer]; decide)
  exact ⟨d, waiting_returns (by decide) (by decide) userProgram_base path esp ss⟩

/-- A program forks, and its child gets the processor. -/
theorem fork_child_returns_first : ∃ d, Trap.intrExit (switchTo d) = { userProgram with eax := 0#32, mem := (switchTo d).mem } := by
  have esp0 := userProgram_base
  obtain ⟨espDummy, holds⟩ := @syscall_frame userTss userProgram 0xc0100000#32 (by decide) (by decide) esp0
  generalize shared : copyPage (syscallEntry (interrupt userTss none userProgram)).mem 0xc0102000#32 0xc0100000#32 = m
  have there : HoldsWords m (intr0Stack 0xc0102000#32) (intrStack 0x80#32 0#32 espDummy userProgram) :=
    copyPage_frame holds rfl (fun _ _ => rfl) fun _ _ => by rw [shared]
  have suspended := (@buildChildStack_suspended userProgram m 0xc0102000#32 espDummy 0#32 0x80#32 0xc0005000#32 (by decide) there).1
  exact ⟨_, (@fork_child_returns userTss userProgram _ _ m 0xc0102000#32 0xc0100000#32 0xc0005000#32 0xc0100000#32
    (by decide) (by decide) esp0 (by decide) (by decide) (fun _ _ => rfl) (fun _ _ => by rw [shared]) userProgram
    (others_caller suspended (by decide) (by decide)) (caller_calls (by decide) (by decide)) (by decide)).2⟩

/-- A program replaces itself by one with two arguments. -/
theorem execv_starts_two : ∃ c,
    Stacked (start (Trap.intrExit (execvFrame c 0xc0100000#32 0xbfffff80#32 2#32 0x08048000#32))) [2#32, 0xbfffff80#32] := by
  obtain ⟨m, -, stacked⟩ := @execv_starts userTss userProgram
    { userProgram with mem := (syscallEntry (interrupt userTss none userProgram)).mem }
    0xc0100000#32 0xbfffff80#32 2#32 0x08048000#32 (by decide) (by decide) (by decide) (fun _ _ => rfl)
  exact ⟨_, stacked⟩

end Examples

end Sparrow.UserContext
