import Sparrow.Kernel.Trap

/-!
# Switching between tasks

`switch_to` of `thread/switch.S`, and the stack that `thread_create` prepares for it. A task that does not run has
its registers on its own stack and the address of them in `self_kstack`, the first word of its page (`Suspended`).
For the task that calls it, `switch_to` is a function that returns, whatever the tasks do that run in between
(`switchTo_returns`).

All tasks share the kernel's half of the address space, so the change of page directories before `switch_to` is
not seen here.
-/

namespace Sparrow.Switch
set_option autoImplicit false
open Stack Trap

/-- `switch_to` as far as it saves the running task: the return address and the two arguments are on the stack. -/
def saveTask (c : Machine) : Machine :=
  let c := c.push c.esi
  let c := c.push c.edi
  let c := c.push c.ebx
  let c := c.push c.ebp
  let c := c.setEax (c.top 5)
  { c with mem := storeWord c.mem c.eax.toNat c.esp }

/-- The rest of `switch_to`. -/
def resumeTask (c : Machine) : Machine :=
  let c := c.setEax (c.top 6)
  let c := { c with esp := loadWord c.mem c.eax.toNat }
  let c := { c with ebp := c.top 0 }.drop 1
  let c := { c with ebx := c.top 0 }.drop 1
  let c := { c with edi := c.top 0 }.drop 1
  let c := { c with esi := c.top 0 }.drop 1
  { c with eip := c.top 0 }.drop 1

def switchTo (c : Machine) : Machine := resumeTask (saveTask c)

/-- What a task goes on with when it runs again. -/
structure Context where
  ebp : Word
  ebx : Word
  edi : Word
  esi : Word
  eip : Word
  esp : Word

/-- The registers in the order of `struct thread_stack`. -/
def Context.words (k : Context) : List Word := [k.ebp, k.ebx, k.edi, k.esi, k.eip]

/-- The context of a caller of `switch_to`. -/
def contextOf (c : Machine) : Context := ⟨c.ebp, c.ebx, c.edi, c.esi, c.top 0, up c.esp 1⟩

/-- The machine goes on with `k`. -/
structure Resumed (k : Context) (c : Machine) : Prop where
  ebp : c.ebp = k.ebp
  ebx : c.ebx = k.ebx
  edi : c.edi = k.edi
  esi : c.esi = k.esi
  eip : c.eip = k.eip
  esp : c.esp = k.esp

/-- The task whose page is at `t` has stopped and will go on with `k`. -/
structure Suspended (m : Image) (t : Word) (k : Context) : Prop where
  kstack : loadWord m t.toNat = down k.esp 5
  stack : HoldsWords m (k.esp.toNat - 20) k.words
  low : t.toNat + 24 ≤ k.esp.toNat
  high : k.esp.toNat ≤ t.toNat + 4096

/-- The task at `cur` calls `switch_to(cur, next)`, on its own stack. -/
structure Calls (c : Machine) (cur next : Word) : Prop where
  aligned : cur.toNat % 4096 = 0
  args : Stacked c [c.top 0, cur, next]
  low : cur.toNat + 20 ≤ c.esp.toNat
  high : c.esp.toNat + 12 ≤ cur.toNat + 4096

/-- The stack pointer that the task at `t` has left, and all that is on its stack, are as they were. -/
def KeepsStack (t : Word) (m m' : Image) : Prop :=
  ∀ x, t.toNat ≤ x ∧ x < t.toNat + 4 ∨ (loadWord m t.toNat).toNat ≤ x ∧ x < t.toNat + 4096 → m' x = m x

/-- Tasks other than the one at `t` run: they do what leaves its stack alone, and switch to each other. -/
inductive Others (t : Word) (c : Machine) : Machine → Prop
  | start : Others t c c
  | work {d e : Machine} (before : Others t c d) (keeps : KeepsStack t d.mem e.mem) : Others t c e
  | switch {d : Machine} {u v : Word} (before : Others t c d) (calls : Calls d u v) (this : u ≠ t) (next : v ≠ t) :
      Others t c (switchTo d)

section Save

variable {c : Machine} {m m' : Image} {t u : Word} {k : Context}

theorem Suspended.kstack_toNat (h : Suspended m t k) : (loadWord m t.toNat).toNat = k.esp.toNat - 20 := by
  rw [h.kstack, toNat_down (Nat.le_trans (by omega) h.low)]

theorem Suspended.above (h : Suspended m t k) : t.toNat ≤ (loadWord m t.toNat).toNat := by
  have low := h.low
  rw [h.kstack_toNat]
  omega

theorem Suspended.congr (h : Suspended m t k) (keeps : KeepsStack t m m') : Suspended m' t k := by
  have low := h.low
  have pointer := h.kstack_toNat
  refine ⟨?_, h.stack.congr fun x le lt => keeps x (.inr ⟨?_, ?_⟩), low, h.high⟩
  · rw [← h.kstack]
    exact load_congr fun i lt => keeps _ (.inl ⟨by omega, by omega⟩)
  · omega
  · have := h.high
    change x < k.esp.toNat - 20 + 4 * 5 at lt
    omega

/-- The registers of the caller are on its stack, and its page alone has changed. -/
theorem saveTask_suspended (calls : Calls c t u) : Suspended (saveTask c).mem t (contextOf c) ∧ (saveTask c).top 6 = u ∧
    ∀ x, x < t.toNat ∨ t.toNat + 4 ≤ x ∧ x < c.esp.toNat - 16 ∨ c.esp.toNat ≤ x → (saveTask c).mem x = c.mem x := by
  obtain ⟨-, args, low, high⟩ := calls
  have bound := c.esp.isLt
  have pushed : Stacked (c.pushes [c.esi, c.edi, c.ebx, c.ebp]) ([c.ebp, c.ebx, c.edi, c.esi] ++ [c.top 0, t, u]) :=
    args.pushes (show 16 ≤ _ by omega)
  have cur : (c.pushes [c.esi, c.edi, c.ebx, c.ebp]).top 5 = t := pushed.top (show 5 < 7 by decide)
  have pointer : (c.pushes [c.esi, c.edi, c.ebx, c.ebp]).esp = down c.esp 4 := Machine.pushes_esp
  have fourBelow : (down c.esp 4).toNat = c.esp.toNat - 16 := toNat_down (by omega)
  have top : c.esp.toNat + 12 ≤ 2 ^ 32 := args.2
  have behind : (up c.esp 1).toNat = c.esp.toNat + 4 := toNat_up (by omega)
  have memory : (saveTask c).mem = storeWord (c.pushes [c.esi, c.edi, c.ebx, c.ebp]).mem t.toNat (down c.esp 4) := by
    show storeWord _ ((c.pushes [c.esi, c.edi, c.ebx, c.ebp]).top 5).toNat (c.pushes [c.esi, c.edi, c.ebx, c.ebp]).esp = _
    rw [cur, pointer]
    rfl
  obtain ⟨holds, room⟩ := pushed
  rw [pointer, fourBelow] at holds room
  have stack : HoldsWords (saveTask c).mem (c.esp.toNat - 16) ([c.ebp, c.ebx, c.edi, c.esi] ++ [c.top 0, t, u]) := by
    rw [memory]
    exact holds.store (.inr (by omega))
  have lower : down (up c.esp 1) 5 = down c.esp 4 := by
    show down (up c.esp 1) (1 + 4) = _
    rw [← down_down, down_up]
  refine ⟨⟨?_, ?_, ?_, ?_⟩, ?_, fun x outside => ?_⟩
  · show _ = down (up c.esp 1) 5
    rw [lower, memory, load_store_same]
  · show HoldsWords _ ((up c.esp 1).toNat - 20) ([c.ebp, c.ebx, c.edi, c.esi] ++ [c.top 0])
    rw [behind, show c.esp.toNat + 4 - 20 = c.esp.toNat - 16 by omega]
    exact (@holds_append _ _ ([c.ebp, c.ebx, c.edi, c.esi] ++ [c.top 0]) [t, u]).1 stack |>.1
  · show _ ≤ (up c.esp 1).toNat
    omega
  · show (up c.esp 1).toNat ≤ _
    omega
  · have whole : Stacked (saveTask c) ([c.ebp, c.ebx, c.edi, c.esi] ++ [c.top 0, t, u]) := by
      have same : (saveTask c).esp = down c.esp 4 := pointer
      rw [Stacked, same, fourBelow]
      exact ⟨stack, room⟩
    exact whole.top (show 6 < 7 by decide)
  · rw [memory, store_out (by omega), Machine.pushes_eq (show 16 ≤ _ by omega)]
    exact pushAll_out (show 16 ≤ _ by omega) (show x < c.esp.toNat - 16 ∨ _ by omega)

/-- The task that was saved goes on. -/
theorem resumeTask_resumed (suspended : Suspended c.mem t k) (next : c.top 6 = t) : Resumed k (resumeTask c) := by
  obtain ⟨kstack, holds, low, high⟩ := suspended
  have bound := k.esp.isLt
  have pointer : (down k.esp 5).toNat = k.esp.toNat - 20 := toNat_down (by omega)
  have stack : Stacked { c.setEax t with esp := down k.esp 5 } k.words := by
    refine ⟨?_, ?_⟩
    · show HoldsWords c.mem (down k.esp 5).toNat k.words
      rwa [pointer]
    · show (down k.esp 5).toNat + 20 ≤ _
      omega
  generalize frame : { c.setEax t with esp := down k.esp 5 : Machine } = e at stack
  have start : resumeTask c = { e with
      ebp := e.top 0, ebx := (e.drop 1).top 0, edi := ((e.drop 1).drop 1).top 0, esi := (((e.drop 1).drop 1).drop 1).top 0
      eip := ((((e.drop 1).drop 1).drop 1).drop 1).top 0, esp := up (up (up (up (up e.esp 1) 1) 1) 1) 1 } := by
    rw [← frame, ← kstack, ← next]
    rfl
  simp only [Machine.top_drop, up_up, Nat.reduceAdd] at start
  rw [start]
  refine ⟨stack.top (show 0 < 5 by decide), stack.top (show 1 < 5 by decide), stack.top (show 2 < 5 by decide),
    stack.top (show 3 < 5 by decide), stack.top (show 4 < 5 by decide), ?_⟩
  rw [← frame]
  exact up_down

end Save

section Runs

variable {c d : Machine} {t u v : Word} {k : Context}

theorem KeepsStack.trans {m m' m'' : Image} (h : KeepsStack t m m') (h' : KeepsStack t m' m'') : KeepsStack t m m'' := by
  have same : loadWord m' t.toNat = loadWord m t.toNat := load_congr fun i lt => h _ (.inl ⟨by omega, by omega⟩)
  intro x within
  rw [h' x (by rwa [same]), h x within]

/-- A switch between two other tasks. -/
theorem keepsStack_switch (h : Suspended c.mem t k) (aligned : t.toNat % 4096 = 0) (calls : Calls c u v) (this : u ≠ t) :
    KeepsStack t c.mem (switchTo c).mem := by
  obtain ⟨-, -, out⟩ := saveTask_suspended calls
  have apart : u.toNat ≠ t.toNat := fun e => this (BitVec.eq_of_toNat_eq e)
  have pages := calls.aligned
  have inside := calls.high
  have low := h.low
  have high := h.high
  have bound := t.isLt
  intro x within
  rw [h.kstack_toNat] at within
  exact out x (by omega)

/-- Whatever other tasks do, a task that has stopped finds its stack. -/
theorem Others.keeps (others : Others t c d) (aligned : t.toNat % 4096 = 0) (h : Suspended c.mem t k) :
    KeepsStack t c.mem d.mem := by
  induction others with
  | start => exact fun _ _ => rfl
  | work _ keeps ih => exact ih.trans keeps
  | «switch» _ calls this _ ih => exact ih.trans (keepsStack_switch (h.congr ih) aligned calls this)

/-- **A task that has stopped goes on where it was** when, after any run of the others, the processor is switched
to it. -/
theorem Others.resumes (others : Others t c d) (aligned : t.toNat % 4096 = 0) (h : Suspended c.mem t k) (back : Calls d v t)
    (other : v ≠ t) : Resumed k (switchTo d) ∧ KeepsStack t c.mem (switchTo d).mem := by
  have keeps := others.keeps aligned h
  have last := keepsStack_switch (h.congr keeps) aligned back other
  obtain ⟨-, next, -⟩ := saveTask_suspended back
  exact ⟨resumeTask_resumed (h.congr (keeps.trans last)) next, keeps.trans last⟩

/-- The task at `t` has called `switch_to` on the machine `c` and runs again on the machine `d`. -/
inductive Back (t : Word) (c : Machine) : Machine → Prop
  | same (calls : Calls c t t) : Back t c (switchTo c)
  | later {d : Machine} {u v : Word} (calls : Calls c t u) (other : u ≠ t) (others : Others t (switchTo c) d)
      (back : Calls d v t) (this : v ≠ t) : Back t c (switchTo d)

/-- The stack of the caller is as it was. -/
theorem Back.stack (h : Back t c d) {x : Nat} (low : c.esp.toNat ≤ x) (high : x < t.toNat + 4096) : d.mem x = c.mem x := by
  cases h with
  | same calls =>
    obtain ⟨-, -, out⟩ := saveTask_suspended calls
    exact out x (.inr (.inr low))
  | later calls other others back this =>
    obtain ⟨suspended, -, out⟩ := saveTask_suspended calls
    obtain ⟨-, keeps⟩ := others.resumes calls.aligned suspended back this
    have stopped : Suspended (switchTo c).mem t (contextOf c) := suspended
    have pointer := stopped.kstack_toNat
    have room : c.esp.toNat + 12 ≤ 2 ^ 32 := calls.args.2
    have behind : (contextOf c).esp.toNat = c.esp.toNat + 4 := toNat_up (by omega)
    rw [keeps x (.inr ⟨by rw [pointer]; omega, high⟩)]
    exact out x (.inr (.inr low))

/-- **`switch_to` returns to its caller like a function**: with the registers a function preserves, at the return
address, with the arguments on the stack and the stack of the caller as it was, whatever ran in between. -/
theorem switchTo_returns (h : Back t c d) :
    Resumed (contextOf c) d ∧ ∀ x, c.esp.toNat ≤ x → x < t.toNat + 4096 → d.mem x = c.mem x := by
  refine ⟨?_, fun x low high => h.stack low high⟩
  cases h with
  | same calls =>
    obtain ⟨suspended, next, -⟩ := saveTask_suspended calls
    exact resumeTask_resumed suspended next
  | later calls other others back this =>
    obtain ⟨suspended, -, -⟩ := saveTask_suspended calls
    exact (others.resumes calls.aligned suspended back this).1

end Runs

/-- `thread_create`, with `self_kstack` as `init_thread` has set it: the structures are left room for as many words as
they have bytes. -/
def threadCreate (m : Image) (pthread kernelThread function funcArg : Word) : Image :=
  let m := storeWord m pthread.toNat (loadWord m pthread.toNat - 304#32)
  let m := storeWord m pthread.toNat (loadWord m pthread.toNat - 128#32)
  let kthreadStack := (loadWord m pthread.toNat).toNat
  let m := storeWord m (kthreadStack + 16) kernelThread
  let m := storeWord m (kthreadStack + 24) function
  let m := storeWord m (kthreadStack + 28) funcArg
  let m := storeWord m (kthreadStack + 8) 0#32
  let m := storeWord m (kthreadStack + 12) 0#32
  let m := storeWord m (kthreadStack + 4) 0#32
  storeWord m kthreadStack 0#32

section Create

variable {m : Image} {t kernelThread function funcArg : Word}

/-- A new task will go on at `kernel_thread` with its two arguments on the stack, behind the place of a return
address. -/
theorem threadCreate_suspended (room : t.toNat + 4096 < 2 ^ 32) (init : loadWord m t.toNat = t + 4096#32) :
    Suspended (threadCreate m t kernelThread function funcArg) t ⟨0#32, 0#32, 0#32, 0#32, kernelThread, t + 3684#32⟩ ∧
      ∃ unused, HoldsWords (threadCreate m t kernelThread function funcArg) (t.toNat + 3684) [unused, function, funcArg] := by
  have pointer : (t + 3664#32).toNat = t.toNat + 3664 := Nat.mod_eq_of_lt (show t.toNat + 3664 < 2 ^ 32 by omega)
  have behind : (t + 3684#32).toNat = t.toNat + 3684 := Nat.mod_eq_of_lt (show t.toNat + 3684 < 2 ^ 32 by omega)
  have first : loadWord m t.toNat - 304#32 - 128#32 = t + 3664#32 := by
    rw [init]
    bv_omega
  let m₂ := storeWord (storeWord m t.toNat (loadWord m t.toNat - 304#32)) t.toNat (t + 3664#32)
  have moved : storeWord (storeWord m t.toNat (loadWord m t.toNat - 304#32)) t.toNat
      (loadWord (storeWord m t.toNat (loadWord m t.toNat - 304#32)) t.toNat - 128#32) = m₂ := by
    rw [load_store_same, first]
  have kstack : (loadWord m₂ t.toNat).toNat = t.toNat + 3664 := by
    rw [load_store_same, pointer]
  have created : threadCreate m t kernelThread function funcArg =
      storeWord (storeWord (storeWord (storeWord (storeWord (storeWord (storeWord m₂ (t.toNat + 3664 + 4 * 4) kernelThread)
        (t.toNat + 3664 + 4 * 6) function) (t.toNat + 3664 + 4 * 7) funcArg) (t.toNat + 3664 + 4 * 2) 0#32) (t.toNat + 3664 + 4 * 3) 0#32)
        (t.toNat + 3664 + 4 * 1) 0#32) (t.toNat + 3664 + 4 * 0) 0#32 := by
    rw [threadCreate, moved, kstack]
  -- The eight words of `struct thread_stack`, and then what is stored in them.
  have blank : HoldsWords m₂ (t.toNat + 3664) [_, _, _, _, _, _, _, _] := ⟨rfl, rfl, rfl, rfl, rfl, rfl, rfl, rfl, trivial⟩
  have eip := @HoldsWords.set _ _ _ [_, _, _, _] _ blank kernelThread
  have func := @HoldsWords.set _ _ _ [_, _, _, _, _, _] _ eip function
  have arg := @HoldsWords.set _ _ _ [_, _, _, _, _, _, _] _ func funcArg
  have edi := @HoldsWords.set _ _ _ [_, _] _ arg 0#32
  have esi := @HoldsWords.set _ _ _ [_, _, _] _ edi 0#32
  have ebx := @HoldsWords.set _ _ _ [_] _ esi 0#32
  have ebp := @HoldsWords.set _ _ _ [] _ ebx 0#32
  have stack : ∃ unused, HoldsWords (threadCreate m t kernelThread function funcArg) (t.toNat + 3664)
      ([0#32, 0#32, 0#32, 0#32, kernelThread] ++ [unused, function, funcArg]) := by
    refine ⟨loadWord m₂ (t.toNat + 3664 + 4 + 4 + 4 + 4 + 4), ?_⟩
    rw [created]
    exact ebp
  obtain ⟨unused, holds⟩ := stack
  obtain ⟨front, args⟩ := holds_append.1 holds
  refine ⟨⟨?_, ?_, ?_, ?_⟩, _, args⟩
  · show _ = down (t + 3684#32) 5
    rw [created, load_store_apart (by omega), load_store_apart (by omega), load_store_apart (by omega), load_store_apart (by omega),
      load_store_apart (by omega), load_store_apart (by omega), load_store_apart (by omega), load_store_same, down]
    bv_omega
  · show HoldsWords _ ((t + 3684#32).toNat - 20) _
    rw [behind]
    exact front
  · show _ ≤ (t + 3684#32).toNat
    omega
  · show (t + 3684#32).toNat ≤ _
    omega

/-- **A new task starts in `kernel_thread`**, called with the function and its argument, however late it gets the
processor. -/
theorem thread_starts {c d : Machine} {v : Word} (aligned : t.toNat % 4096 = 0) (room : t.toNat + 4096 < 2 ^ 32)
    (init : loadWord c.mem t.toNat = t + 4096#32)
    (others : Others t { c with mem := threadCreate c.mem t kernelThread function funcArg } d) (back : Calls d v t) (other : v ≠ t) :
    (switchTo d).eip = kernelThread ∧ ∃ unused, Stacked (switchTo d) [unused, function, funcArg] := by
  obtain ⟨suspended, unused, args⟩ := @threadCreate_suspended c.mem t kernelThread function funcArg room init
  obtain ⟨resumed, keeps⟩ := others.resumes aligned suspended back other
  have behind : (t + 3684#32).toNat = t.toNat + 3684 := Nat.mod_eq_of_lt (show t.toNat + 3684 < 2 ^ 32 by omega)
  have pointer : (down (t + 3684#32) 5).toNat = t.toNat + 3664 := by
    rw [toNat_down (by omega), behind]
    omega
  refine ⟨resumed.eip, unused, ?_⟩
  rw [Stacked, resumed.esp, behind]
  refine ⟨args.congr fun x low high => keeps x (.inr ⟨?_, ?_⟩), ?_⟩
  · rw [suspended.kstack, pointer]
    omega
  · change x < t.toNat + 3684 + 12 at high
    omega
  · show t.toNat + 3684 + 12 ≤ _
    omega

end Create

section Examples

/-- A task whose stack begins in the middle of its page. -/
def ready (m : Image) (page : Word) : Machine := { userProgram with esp := page + 2048#32, mem := m }

/-- It calls `switch_to(page, next)`. -/
def caller (m : Image) (page next : Word) : Machine := (ready m page).pushes [next, page, 0xc0002000#32]

theorem ready_esp {m : Image} {page : Word} (room : page.toNat + 4096 < 2 ^ 32) : (ready m page).esp.toNat = page.toNat + 2048 :=
  Nat.mod_eq_of_lt (show page.toNat + 2048 < 2 ^ 32 by omega)

theorem caller_few {m : Image} {page next : Word} (room : page.toNat + 4096 < 2 ^ 32) :
    4 * [next, page, 0xc0002000#32].length ≤ (ready m page).esp.toNat := by
  rw [ready_esp room]
  exact Nat.le_add_left_of_le (show 12 ≤ 2048 by decide)

theorem caller_esp {m : Image} {page next : Word} (room : page.toNat + 4096 < 2 ^ 32) :
    (caller m page next).esp.toNat = page.toNat + 2036 := by
  rw [caller, Machine.pushes_esp, toNat_down (caller_few room), ready_esp room]
  rfl

theorem caller_calls {m : Image} {page next : Word} (aligned : page.toNat % 4096 = 0) (room : page.toNat + 4096 < 2 ^ 32) :
    Calls (caller m page next) page next := by
  have bottom : Stacked (ready m page) [] := ⟨trivial, by rw [ready_esp room, List.length_nil]; omega⟩
  have stacked : Stacked (caller m page next) [0xc0002000#32, page, next] := bottom.pushes (caller_few room)
  have esp := @caller_esp m page next room
  have ret : (caller m page next).top 0 = 0xc0002000#32 := stacked.top (show 0 < 3 by decide)
  refine ⟨aligned, ?_, by omega, by omega⟩
  rwa [ret]

/-- Its memory outside of the page is the one it was given. -/
theorem caller_mem {m : Image} {page next : Word} (room : page.toNat + 4096 < 2 ^ 32) {x : Nat}
    (out : x < page.toNat + 2036 ∨ page.toNat + 2048 ≤ x) : (caller m page next).mem x = m x := by
  refine Machine.pushes_out (caller_few room) ?_
  rw [ready_esp room]
  exact out

/-- For a task that has stopped in a higher page, another one runs up to this call. -/
theorem others_caller {c : Machine} {t page next : Word} {k : Context} (suspended : Suspended c.mem t k)
    (room : page.toNat + 4096 < 2 ^ 32) (apart : page.toNat + 4096 ≤ t.toNat) : Others t c (caller c.mem page next) := by
  have above := suspended.above
  exact .work .start fun x within => caller_mem room (.inr (by omega))

/-- A task gives up the processor, and another one gives it back. -/
theorem switchTo_returns_later : ∃ c d, Back 0xc0102000#32 c (switchTo d) ∧ Resumed (contextOf c) (switchTo d) := by
  have calls : Calls (caller (fun _ => 0#8) 0xc0102000#32 0xc0100000#32) 0xc0102000#32 0xc0100000#32 :=
    caller_calls (by decide) (by decide)
  generalize caller (fun _ => 0#8) 0xc0102000#32 0xc0100000#32 = c at calls
  have stopped : Suspended (switchTo c).mem 0xc0102000#32 (contextOf c) := (saveTask_suspended calls).1
  have back : Back 0xc0102000#32 c (switchTo (caller (switchTo c).mem 0xc0100000#32 0xc0102000#32)) :=
    .later calls (by decide) (others_caller stopped (by decide) (by decide)) (caller_calls (by decide) (by decide)) (by decide)
  exact ⟨c, _, back, (switchTo_returns back).1⟩

/-- A new task gets the processor from the one that has created it. -/
theorem thread_starts_first : ∃ d, (switchTo d).eip = 0xc0003000#32 ∧
    ∃ unused, Stacked (switchTo d) [unused, 0xc0004000#32, 7#32] := by
  have init : loadWord (ready (storeWord (fun _ => 0#8) 0xc0102000 0xc0103000#32) 0xc0100000#32).mem 0xc0102000 =
      0xc0103000#32 := load_store_same
  generalize ready (storeWord (fun _ => 0#8) 0xc0102000 0xc0103000#32) 0xc0100000#32 = c at init
  have suspended := (@threadCreate_suspended c.mem 0xc0102000#32 0xc0003000#32 0xc0004000#32 7#32 (by decide) init).1
  exact ⟨_, @thread_starts 0xc0102000#32 0xc0003000#32 0xc0004000#32 7#32 c _ 0xc0100000#32 (by decide) (by decide) init
    (others_caller suspended (by decide) (by decide)) (caller_calls (by decide) (by decide)) (by decide)⟩

end Examples

end Sparrow.Switch
