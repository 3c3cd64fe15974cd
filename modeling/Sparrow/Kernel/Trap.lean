import Sparrow.Lib.Stack

/-!
# Interrupts and system calls

`kernel/kernel.S`. The processor and then a stub push what becomes a `struct intr_stack`, a function of the
kernel runs, and `intr_exit` takes everything back. The program that was interrupted goes on as if nothing
had happened (`interrupt_transparent`), provided that the stub pushes a word exactly where the processor
pushes no error code; after a system call only `eax` is another one (`syscall_returns`).

The functions of the kernel that the stubs call are arbitrary: of them is asked only that they return and leave
the frame alone (`Keeps`). The commands to the interrupt controller are left out, and so is what `iretd` does
to segment registers with selectors of the kernel in a program of ring 3, which has none.
-/

namespace Sparrow.Trap
set_option autoImplicit false
open Stack

abbrev Selector := BitVec 16

/-- `SELECTOR_K_CODE` and `SELECTOR_K_STACK`. -/
def selectorKCode : Selector := 0x08#16
def selectorKStack : Selector := 0x10#16

/-- The registers of the processor, and memory. -/
structure Machine where
  eax : Word
  ecx : Word
  edx : Word
  ebx : Word
  esp : Word
  ebp : Word
  esi : Word
  edi : Word
  eip : Word
  eflags : Word
  cs : Selector
  ss : Selector
  ds : Selector
  es : Selector
  fs : Selector
  gs : Selector
  mem : Image

/-- A code selector of ring 3. -/
def IsUser (cs : Selector) : Prop := cs &&& 3#16 = 3#16

instance (cs : Selector) : Decidable (IsUser cs) := inferInstanceAs (Decidable (_ = _))

namespace Machine

/-- The word `n` of the stack, `[esp + 4 * n]`. -/
def top (c : Machine) (n : Nat) : Word := loadWord c.mem (up c.esp n).toNat

/-- `add esp, 4 * n`. -/
def drop (n : Nat) (c : Machine) : Machine := { c with esp := up c.esp n }

/-- `push`. -/
def push (c : Machine) (w : Word) : Machine := { c with esp := down c.esp 1, mem := storeWord c.mem (down c.esp 1).toNat w }

/-- One `push` after another. -/
def pushes (c : Machine) (ws : List Word) : Machine := ws.foldl push c

/-- `mov eax`. -/
def setEax (c : Machine) (w : Word) : Machine := { c with eax := w }

/-- `push ds` to `push gs`. -/
def pushSegments (c : Machine) : Machine :=
  c.pushes [c.ds.setWidth 32, c.es.setWidth 32, c.fs.setWidth 32, c.gs.setWidth 32]

/-- `pushad`, with the stack pointer from before it. -/
def pushad (c : Machine) : Machine := c.pushes [c.eax, c.ecx, c.edx, c.ebx, c.esp, c.ebp, c.esi, c.edi]

/-- `popad`, which leaves the stack pointer out. -/
def popad (c : Machine) : Machine :=
  drop 8 { c with
    edi := c.top 0, esi := c.top 1, ebp := c.top 2, ebx := c.top 4, edx := c.top 5, ecx := c.top 6, eax := c.top 7 }

/-- `iretd` in ring 0. On the way to ring 3 it takes another stack. -/
def iretd (c : Machine) : Machine :=
  let back := { c with eip := c.top 0, cs := (c.top 1).setWidth 16, eflags := c.top 2 }
  if IsUser back.cs then { back with esp := c.top 3, ss := (c.top 4).setWidth 16 } else back.drop 3

end Machine

/-- The fields of `struct tss` the processor reads on the way to ring 0. -/
structure Tss where
  esp0 : Word
  ss0 : Selector

/-- The stack on which an interrupt is served. -/
def base (tss : Tss) (c : Machine) : Word := if IsUser c.cs then tss.esp0 else c.esp

/-- An interrupt through a gate to ring 0, with an error code or without one. It disables interrupts and
clears the flags TF, NT, RF and VM. -/
def interrupt (tss : Tss) (err : Option Word) (c : Machine) : Machine :=
  let d := { c with cs := selectorKCode, eflags := c.eflags &&& 0xfffcbcff#32 }
  let d := if IsUser c.cs then { d with esp := tss.esp0, ss := tss.ss0 }.pushes [c.ss.setWidth 32, c.esp] else d
  let d := d.pushes [c.eflags, c.cs.setWidth 32, c.eip]
  d.pushes err.toList

/-- The stubs of `intr_entry_table` that are written with `ERROR_CODE`. -/
def stubErrorCode (vecNo : Nat) : Bool :=
  vecNo ∈ [0x08, 0x0a, 0x0b, 0x0d, 0x0e, 0x11, 0x18, 0x1a, 0x1b, 0x1d, 0x1e]

/-- A stub `intr%1entry`, up to the call. -/
def intrEntry (vecNo : Nat) (c : Machine) : Machine :=
  let c := if stubErrorCode vecNo then c else c.push 0#32
  let c := c.pushSegments
  let c := c.pushad
  let c := c.setEax (c.eax &&& 0xffffff00#32 ||| 0x20#32)
  c.push (BitVec.ofNat 32 vecNo)

/-- `intr_exit`. -/
def intrExit (c : Machine) : Machine :=
  let c := c.drop 1
  let c := c.popad
  let c := { c with gs := (c.top 0).setWidth 16 }.drop 1
  let c := { c with fs := (c.top 0).setWidth 16 }.drop 1
  let c := { c with es := (c.top 0).setWidth 16 }.drop 1
  let c := { c with ds := (c.top 0).setWidth 16 }.drop 1
  let c := c.drop 1
  c.iretd

/-- An interrupt from the program that it interrupts and back, `handler` being `idt_table[vecNo]`. -/
def serveInterrupt (tss : Tss) (vecNo : Nat) (err : Option Word) (handler : Machine → Machine) (c : Machine) : Machine :=
  intrExit (handler (intrEntry vecNo (interrupt tss err c)))

/-- `syscall_handler` up to the call. -/
def syscallEntry (c : Machine) : Machine :=
  let c := c.push 0#32
  let c := c.pushSegments
  let c := c.pushad
  let c := c.push 0x80#32
  let c := c.push c.edx
  let c := c.push c.ecx
  c.push c.ebx

/-- The rest of `syscall_handler`. -/
def syscallExit (c : Machine) : Machine :=
  let c := c.drop 3
  intrExit { c with mem := storeWord c.mem (up c.esp 8).toNat c.eax }

/-- `int 0x80` and what it leads to. -/
def intSyscall (tss : Tss) (syscallTable : Word → Machine → Machine) (c : Machine) : Machine :=
  let d := syscallEntry (interrupt tss none c)
  syscallExit (syscallTable d.eax d)

/-- `d` is what a function of the kernel called on `c` with `args` words of arguments leaves: the stack is
where it was, and the `words` words behind the arguments are as they were. -/
structure Keeps (args words : Nat) (c d : Machine) : Prop where
  esp : d.esp = c.esp
  ss : d.ss = c.ss
  frame : ∀ x, c.esp.toNat + 4 * args ≤ x → x < c.esp.toNat + 4 * (args + words) → d.mem x = c.mem x

/-- The stack begins with the words `ws`, and they end below the end of the address space. -/
def Stacked (c : Machine) (ws : List Word) : Prop := HoldsWords c.mem c.esp.toNat ws ∧ c.esp.toNat + 4 * ws.length ≤ 2 ^ 32

section Stacks

variable {c d : Machine} {ws vs : List Word} {w : Word} {n k : Nat}

theorem Machine.pushes_append : c.pushes (ws ++ vs) = (c.pushes ws).pushes vs := List.foldl_append

theorem Machine.push_eq_pushes : c.push w = c.pushes [w] := rfl

/-- Pushing changes the stack pointer and memory only. -/
theorem Machine.pushes_regs : c.pushes ws = { c with esp := down c.esp ws.length, mem := (c.pushes ws).mem } := by
  induction ws generalizing c with
  | nil =>
    show c = { c with esp := down c.esp 0 }
    rw [down_zero]
  | cons w ws ih =>
    show (c.push w).pushes ws = { c with esp := _, mem := ((c.push w).pushes ws).mem }
    rw [ih]
    show { c with esp := down (down c.esp 1) ws.length, mem := _ } = _
    rw [down_down, Nat.add_comm, List.length_cons]

@[simp] theorem Machine.pushes_eax : (c.pushes ws).eax = c.eax := by rw [pushes_regs]
@[simp] theorem Machine.pushes_ecx : (c.pushes ws).ecx = c.ecx := by rw [pushes_regs]
@[simp] theorem Machine.pushes_edx : (c.pushes ws).edx = c.edx := by rw [pushes_regs]
@[simp] theorem Machine.pushes_ebx : (c.pushes ws).ebx = c.ebx := by rw [pushes_regs]
@[simp] theorem Machine.pushes_esp : (c.pushes ws).esp = down c.esp ws.length := by rw [pushes_regs]
@[simp] theorem Machine.pushes_ebp : (c.pushes ws).ebp = c.ebp := by rw [pushes_regs]
@[simp] theorem Machine.pushes_esi : (c.pushes ws).esi = c.esi := by rw [pushes_regs]
@[simp] theorem Machine.pushes_edi : (c.pushes ws).edi = c.edi := by rw [pushes_regs]
@[simp] theorem Machine.pushes_ds : (c.pushes ws).ds = c.ds := by rw [pushes_regs]
@[simp] theorem Machine.pushes_es : (c.pushes ws).es = c.es := by rw [pushes_regs]
@[simp] theorem Machine.pushes_fs : (c.pushes ws).fs = c.fs := by rw [pushes_regs]
@[simp] theorem Machine.pushes_gs : (c.pushes ws).gs = c.gs := by rw [pushes_regs]

theorem Machine.pushes_setEax : (c.pushes ws).setEax w = (c.setEax w).pushes ws := by
  induction ws generalizing c with
  | nil => rfl
  | cons v ws ih => exact ih

/-- Pushing moves the stack pointer and writes the words. -/
theorem Machine.pushes_eq (room : 4 * ws.length ≤ c.esp.toNat) :
    c.pushes ws = { c with esp := down c.esp ws.length, mem := pushAll c.mem c.esp.toNat ws } := by
  induction ws generalizing c with
  | nil =>
    show c = { c with esp := down c.esp 0 }
    rw [down_zero]
  | cons w ws ih =>
    rw [List.length_cons] at room
    have esp : (down c.esp 1).toNat = c.esp.toNat - 4 := toNat_down (by omega)
    show (c.push w).pushes ws = _
    rw [ih (show 4 * ws.length ≤ (down c.esp 1).toNat by omega)]
    show { c with
      esp := down (down c.esp 1) ws.length
      mem := pushAll (storeWord c.mem (down c.esp 1).toNat w) (down c.esp 1).toNat ws } = _
    rw [esp, down_down, Nat.add_comm, List.length_cons]
    rfl

theorem Machine.pushes_out {x : Nat} (room : 4 * ws.length ≤ c.esp.toNat) (out : x < c.esp.toNat - 4 * ws.length ∨ c.esp.toNat ≤ x) :
    (c.pushes ws).mem x = c.mem x := by
  rw [pushes_eq room]
  exact pushAll_out room out

theorem Machine.top_drop : (c.drop k).top n = c.top (k + n) := by
  show loadWord c.mem (up (up c.esp k) n).toNat = _
  rw [up_up]
  rfl

/-- A word that lies on the stack. -/
theorem Stacked.top (h : Stacked c ws) (lt : n < ws.length) : c.top n = ws[n] := by
  obtain ⟨holds, room⟩ := h
  rw [Machine.top, toNat_up (by omega)]
  rw [← List.take_append_drop n ws, holds_append, List.length_take, Nat.min_eq_left (by omega), List.drop_eq_getElem_cons lt] at holds
  exact holds.2.1

theorem Stacked.pushes (h : Stacked c vs) (room : 4 * ws.length ≤ c.esp.toNat) : Stacked (c.pushes ws) (ws.reverse ++ vs) := by
  obtain ⟨holds, high⟩ := h
  rw [Machine.pushes_eq room, Stacked, toNat_down room, List.length_append, List.length_reverse]
  exact ⟨holds.pushAll room, by omega⟩

theorem Stacked.front (h : Stacked c (ws ++ vs)) : Stacked c ws := by
  obtain ⟨holds, room⟩ := h
  rw [List.length_append] at room
  exact ⟨(holds_append.1 holds).1, by omega⟩

theorem Stacked.tops (h : Stacked c ws) : (List.range ws.length).map c.top = ws := by
  apply List.ext_getElem
  · rw [List.length_map, List.length_range]
  · intro n lt lt'
    rw [List.getElem_map, List.getElem_range]
    exact h.top lt'

end Stacks

section Exit

variable {c d : Machine}

/-- The words from which `intr_exit` takes each register. -/
theorem intrExit_eq : intrExit c = { c with
    edi := c.top 1, esi := c.top 2, ebp := c.top 3, ebx := c.top 5, edx := c.top 6, ecx := c.top 7, eax := c.top 8
    gs := (c.top 9).setWidth 16, fs := (c.top 10).setWidth 16, es := (c.top 11).setWidth 16, ds := (c.top 12).setWidth 16
    eip := c.top 14, cs := (c.top 15).setWidth 16, eflags := c.top 16
    esp := if IsUser ((c.top 15).setWidth 16) then c.top 17 else up c.esp 17
    ss := if IsUser ((c.top 15).setWidth 16) then (c.top 18).setWidth 16 else c.ss } := by
  by_cases user : IsUser ((c.top 15).setWidth 16)
  · rw [if_pos user, if_pos user]
    simp only [intrExit, Machine.popad, Machine.iretd, Machine.drop, Machine.top, up_up, Nat.reduceAdd]
    exact if_pos user
  · rw [if_neg user, if_neg user]
    simp only [intrExit, Machine.popad, Machine.iretd, Machine.drop, Machine.top, up_up, Nat.reduceAdd]
    exact if_neg user

/-- The registers of the program `c` in a `struct intr_stack`. The last two words are there when the program is
one of ring 3. -/
def intrSaved (errCode espDummy : Word) (c : Machine) : List Word :=
  [c.edi, c.esi, c.ebp, espDummy, c.ebx, c.edx, c.ecx, c.eax, c.gs.setWidth 32, c.fs.setWidth 32, c.es.setWidth 32,
    c.ds.setWidth 32, errCode, c.eip, c.cs.setWidth 32, c.eflags] ++ if IsUser c.cs then [c.esp, c.ss.setWidth 32] else []

/-- A `struct intr_stack` for the program `c`. -/
def intrStack (vecNo errCode espDummy : Word) (c : Machine) : List Word := vecNo :: intrSaved errCode espDummy c

/-- The words of a `struct intr_stack` behind `vec_no`. -/
def frameWords (c : Machine) : Nat := if IsUser c.cs then 18 else 16

theorem intrSaved_length {errCode espDummy : Word} : (intrSaved errCode espDummy c).length = frameWords c := by
  rw [intrSaved, frameWords]
  split <;> rfl

theorem intrStack_length {vecNo errCode espDummy : Word} : (intrStack vecNo errCode espDummy c).length = frameWords c + 1 :=
  congrArg (· + 1) intrSaved_length

theorem frameWords_bounds (c : Machine) : 16 ≤ frameWords c ∧ frameWords c ≤ 18 := by
  unfold frameWords
  split <;> omega

theorem setWidth_selector (s : Selector) : (s.setWidth 32).setWidth 16 = s := by
  rw [BitVec.setWidth_setWidth_of_le _ (by decide), BitVec.setWidth_eq]

/-- **`intr_exit` gives the program back** whose registers lie on the stack. A program of the kernel finds its
own stack behind them. -/
theorem intrExit_intrStack {vecNo errCode espDummy : Word} (frame : Stacked d (intrStack vecNo errCode espDummy c))
    (kernel : ¬ IsUser c.cs → up d.esp 17 = c.esp ∧ d.ss = c.ss) : intrExit d = { c with mem := d.mem } := by
  have inner : Stacked d (vecNo :: _ ++ _) := frame
  have tops := inner.front.tops
  simp only [List.length_cons, List.length_nil, List.range_succ_eq_map, List.range_zero, List.map_cons, List.map_nil,
    List.cons.injEq, Nat.reduceAdd] at tops
  obtain ⟨-, edi, esi, ebp, -, ebx, edx, ecx, eax, gs, fs, es, ds, -, eip, cs, eflags, -⟩ := tops
  rw [intrExit_eq, edi, esi, ebp, ebx, edx, ecx, eax, gs, fs, es, ds, eip, cs, eflags]
  simp only [setWidth_selector]
  by_cases user : IsUser c.cs
  · rw [intrStack, intrSaved, if_pos user] at frame
    have esp : d.top 17 = c.esp := frame.top (show 17 < 19 by decide)
    have ss : d.top 18 = c.ss.setWidth 32 := frame.top (show 18 < 19 by decide)
    rw [if_pos user, if_pos user, esp, ss, setWidth_selector]
  · obtain ⟨esp, ss⟩ := kernel user
    rw [if_neg user, if_neg user, esp, ss]

end Exit

section Entry

variable {tss : Tss} {c : Machine} {vecNo : Word}

/-- The machine on which an interrupt of `c` is served, with an empty frame. -/
def served (tss : Tss) (c : Machine) : Machine :=
  { c with
    cs := selectorKCode, eflags := c.eflags &&& 0xfffcbcff#32
    esp := base tss c, ss := if IsUser c.cs then tss.ss0 else c.ss }

theorem interrupt_eq {err : Option Word} : interrupt tss err c = (served tss c).pushes
    ((if IsUser c.cs then [c.ss.setWidth 32, c.esp] else []) ++ [c.eflags, c.cs.setWidth 32, c.eip] ++ err.toList) := by
  rw [Machine.pushes_append, Machine.pushes_append]
  by_cases user : IsUser c.cs
  · simp only [interrupt, served, base, if_pos user]
  · simp only [interrupt, served, base, if_neg user]
    rfl

/-- What the processor pushes on the way to ring 0, and an error code. -/
def intrFront (errCode : Word) (c : Machine) : List Word :=
  (if IsUser c.cs then [c.ss.setWidth 32, c.esp] else []) ++ [c.eflags, c.cs.setWidth 32, c.eip, errCode]

/-- The registers that both kinds of stubs push. -/
theorem pushRegs_eq {e : Machine} {ws : List Word} : ((e.pushes ws).pushSegments).pushad = e.pushes (ws ++
    ([e.ds.setWidth 32, e.es.setWidth 32, e.fs.setWidth 32, e.gs.setWidth 32] ++
      [e.eax, e.ecx, e.edx, e.ebx, down e.esp (ws.length + 4), e.ebp, e.esi, e.edi])) := by
  rw [Machine.pushes_append, Machine.pushes_append]
  simp only [Machine.pushad, Machine.pushSegments, Machine.pushes_eax, Machine.pushes_ecx, Machine.pushes_edx, Machine.pushes_ebx,
    Machine.pushes_esp, Machine.pushes_ebp, Machine.pushes_esi, Machine.pushes_edi, Machine.pushes_ds, Machine.pushes_es,
    Machine.pushes_fs, Machine.pushes_gs, down_down]
  rfl

theorem served_regs {ws : List Word} : (((served tss c).pushes ws).pushSegments).pushad = (served tss c).pushes (ws ++
    ([c.ds.setWidth 32, c.es.setWidth 32, c.fs.setWidth 32, c.gs.setWidth 32] ++
      [c.eax, c.ecx, c.edx, c.ebx, down (base tss c) (ws.length + 4), c.ebp, c.esi, c.edi])) := pushRegs_eq

theorem intrStack_reverse {errCode espDummy : Word} : (intrStack vecNo errCode espDummy c).reverse = intrFront errCode c ++
    ([c.ds.setWidth 32, c.es.setWidth 32, c.fs.setWidth 32, c.gs.setWidth 32] ++
      [c.eax, c.ecx, c.edx, c.ebx, espDummy, c.ebp, c.esi, c.edi]) ++ [vecNo] := by
  rw [intrStack, intrSaved, intrFront]
  split <;> rfl

/-- A stub makes one word of what the processor pushes for an error code. -/
theorem interrupt_front {errorCode : Bool} {err : Option Word} (agrees : err.isSome = errorCode) :
    (if errorCode then interrupt tss err c else (interrupt tss err c).push 0#32) =
      (served tss c).pushes (intrFront (err.getD 0#32) c) := by
  subst agrees
  rw [interrupt_eq]
  cases err with
  | none =>
    show ((served tss c).pushes _).pushes [0#32] = _
    rw [← Machine.pushes_append, Option.toList_none, List.append_nil, List.append_assoc]
    rfl
  | some errCode =>
    rw [List.append_assoc]
    rfl

/-- What a stub leaves on the stack is a `struct intr_stack`. -/
theorem intrEntry_eq {vecNo : Nat} {err : Option Word} (agrees : err.isSome = stubErrorCode vecNo) : ∃ espDummy,
    intrEntry vecNo (interrupt tss err c) =
      ((served tss c).setEax (c.eax &&& 0xffffff00#32 ||| 0x20#32)).pushes
        (intrStack (BitVec.ofNat 32 vecNo) (err.getD 0#32) espDummy c).reverse := by
  refine ⟨down (base tss c) ((intrFront (err.getD 0#32) c).length + 4), ?_⟩
  rw [intrStack_reverse, Machine.pushes_append, ← Machine.pushes_setEax, intrEntry, interrupt_front agrees, served_regs,
    Machine.pushes_eax, Machine.push_eq_pushes]
  rfl

theorem syscallEntry_eq : ∃ espDummy, syscallEntry (interrupt tss none c) =
    (served tss c).pushes ((intrStack 0x80#32 0#32 espDummy c).reverse ++ [c.edx, c.ecx, c.ebx]) := by
  have front : (interrupt tss none c).push 0#32 = (served tss c).pushes (intrFront 0#32 c) :=
    @interrupt_front tss c false none rfl
  refine ⟨down (base tss c) ((intrFront 0#32 c).length + 4), ?_⟩
  rw [intrStack_reverse, Machine.pushes_append, Machine.pushes_append, syscallEntry, front, served_regs]
  simp only [Machine.push_eq_pushes, Machine.pushes_edx, Machine.pushes_ecx, Machine.pushes_ebx]
  rw [← Machine.pushes_append, ← Machine.pushes_append]
  rfl

theorem served_room {d e : Machine} {ws : List Word} (pushed : d = e.pushes ws.reverse) (room : 4 * ws.length ≤ e.esp.toNat) :
    Stacked d ws ∧ d.esp.toNat = e.esp.toNat - 4 * ws.length ∧
      ∀ x, x < e.esp.toNat - 4 * ws.length ∨ e.esp.toNat ≤ x → d.mem x = e.mem x := by
  have len : ws.reverse.length = ws.length := List.length_reverse
  have bound := e.esp.isLt
  have esp : d.esp.toNat = e.esp.toNat - 4 * ws.length := by
    rw [pushed, Machine.pushes_esp, len, toNat_down room]
  rw [Machine.pushes_eq (by omega)] at pushed
  have mem : d.mem = pushAll e.mem e.esp.toNat ws.reverse := by rw [pushed]
  refine ⟨⟨?_, by omega⟩, esp, fun x out => ?_⟩
  · have := @holds_pushAll e.mem e.esp.toNat ws.reverse (by omega)
    rw [len, List.reverse_reverse] at this
    rw [esp, mem]
    exact this
  · rw [mem]
    exact pushAll_out (by omega) (by omega)

/-- Behind the arguments the stack is as it was. -/
theorem Stacked.kept {c d : Machine} {vs ws : List Word} (h : Stacked c (vs ++ ws)) (keeps : Keeps vs.length ws.length c d) :
    HoldsWords d.mem (c.esp.toNat + 4 * vs.length) ws := by
  refine (holds_append.1 h.1).2.congr fun x low high => keeps.frame x low ?_
  omega

end Entry

section Returns

variable {tss : Tss} {c d : Machine} {vecNo : Nat} {espDummy errCode word : Word} {err : Option Word}
  {handler : Machine → Machine} {syscallTable : Word → Machine → Machine}

/-- A program of the kernel has its stack behind the frame. -/
theorem up_frame (kernel : ¬ IsUser c.cs) (esp : d.esp = down (base tss c) (frameWords c + 1)) : up d.esp 17 = c.esp := by
  rw [esp, frameWords, if_neg kernel, base, if_neg kernel]
  exact up_down

theorem intrEntry_esp (agrees : err.isSome = stubErrorCode vecNo) :
    (intrEntry vecNo (interrupt tss err c)).esp = down (base tss c) (frameWords c + 1) := by
  obtain ⟨espDummy, entry⟩ := @intrEntry_eq tss c vecNo err agrees
  rw [entry, Machine.pushes_esp, List.length_reverse, intrStack_length]
  rfl

/-- The registers come back from the frame. -/
theorem serveInterrupt_eq (agrees : err.isSome = stubErrorCode vecNo) (room : 76 ≤ (base tss c).toNat)
    (keeps : Keeps 1 (frameWords c) (intrEntry vecNo (interrupt tss err c))
      (handler (intrEntry vecNo (interrupt tss err c)))) :
    serveInterrupt tss vecNo err handler c =
      { c with mem := (handler (intrEntry vecNo (interrupt tss err c))).mem } := by
  obtain ⟨espDummy, entry⟩ := @intrEntry_eq tss c vecNo err agrees
  have pointer := @intrEntry_esp tss c vecNo err agrees
  unfold serveInterrupt
  generalize intrEntry vecNo (interrupt tss err c) = d at keeps entry pointer ⊢
  have len := @intrStack_length c (BitVec.ofNat 32 vecNo) (err.getD 0#32) espDummy
  have few := frameWords_bounds c
  have stack : d.ss = if IsUser c.cs then tss.ss0 else c.ss := by
    rw [entry, Machine.pushes_regs]
    rfl
  obtain ⟨⟨holds, high⟩, -, -⟩ := served_room entry (show 4 * _ ≤ (base tss c).toNat by omega)
  -- The word of `vec_no` is the handler's argument, and it may have stored there.
  have saved : HoldsWords (handler d).mem ((handler d).esp.toNat + 4) (intrSaved (err.getD 0#32) espDummy c) := by
    rw [keeps.esp]
    exact holds.2.congr fun x low lt => keeps.frame x low (by rw [intrSaved_length] at lt; omega)
  refine @intrExit_intrStack c (handler d) (loadWord (handler d).mem (handler d).esp.toNat) (err.getD 0#32) espDummy
    ⟨⟨rfl, saved⟩, ?_⟩ fun kernel => ⟨?_, ?_⟩
  · rw [keeps.esp]
    exact high
  · rw [keeps.esp]
    exact up_frame kernel pointer
  · rw [keeps.ss, stack, if_neg kernel]

/-- Entering the kernel stores the frame and nothing else. -/
theorem intrEntry_out (agrees : err.isSome = stubErrorCode vecNo) (room : 76 ≤ (base tss c).toNat) {x : Nat}
    (outside : x < (base tss c).toNat - 76 ∨ (base tss c).toNat ≤ x) :
    (intrEntry vecNo (interrupt tss err c)).mem x = c.mem x := by
  obtain ⟨espDummy, entry⟩ := @intrEntry_eq tss c vecNo err agrees
  have len := @intrStack_length c (BitVec.ofNat 32 vecNo) (err.getD 0#32) espDummy
  have few := frameWords_bounds c
  obtain ⟨-, -, out⟩ := served_room entry (show 4 * _ ≤ (base tss c).toNat by omega)
  refine out x ?_
  change x < (base tss c).toNat - _ ∨ (base tss c).toNat ≤ x
  omega

/-- **An interrupt is transparent.** Where the stub pushes a word just when the processor pushes no error code, the
program that was interrupted, in ring 3 or in the kernel, has all of its registers again. In memory there is what the
handler stored, and below the stack of the program the frame. -/
theorem interrupt_transparent (agrees : err.isSome = stubErrorCode vecNo) (room : 76 ≤ (base tss c).toNat)
    (keeps : Keeps 1 (frameWords c) (intrEntry vecNo (interrupt tss err c))
      (handler (intrEntry vecNo (interrupt tss err c)))) :
    serveInterrupt tss vecNo err handler c =
        { c with mem := (handler (intrEntry vecNo (interrupt tss err c))).mem } ∧
      ∀ x, x < (base tss c).toNat - 76 ∨ (base tss c).toNat ≤ x →
        (intrEntry vecNo (interrupt tss err c)).mem x = c.mem x :=
  ⟨serveInterrupt_eq agrees room keeps, fun _ => intrEntry_out agrees room⟩

/-- The result of a system call gets into the frame. -/
theorem syscallExit_eq (frame : Stacked (d.drop 3) (intrStack word errCode espDummy c))
    (kernel : ¬ IsUser c.cs → up (up d.esp 3) 17 = c.esp ∧ d.ss = c.ss) :
    syscallExit d = { c with eax := d.eax, mem := storeWord d.mem (up (up d.esp 3) 8).toNat d.eax } := by
  obtain ⟨holds, high⟩ := frame
  have len := @intrStack_length c word errCode espDummy
  have few := frameWords_bounds c
  have slot : (up (up d.esp 3) 8).toNat = (up d.esp 3).toNat + 4 * 8 := by
    refine toNat_up ?_
    change (up d.esp 3).toNat + _ ≤ 2 ^ 32 at high
    omega
  have stored : HoldsWords (storeWord d.mem ((up d.esp 3).toNat + 4 * 8) d.eax) (up d.esp 3).toNat
      (intrStack word errCode espDummy { c with eax := d.eax }) :=
    @HoldsWords.set d.mem (up d.esp 3).toNat c.eax [word, c.edi, c.esi, c.ebp, espDummy, c.ebx, c.edx, c.ecx] _ holds d.eax
  rw [← slot] at stored
  exact @intrExit_intrStack { c with eax := d.eax } { d.drop 3 with mem := _ } word errCode espDummy ⟨stored, high⟩ kernel

/-- At the call of a function of the kernel the stack has its arguments and then the frame. -/
theorem syscallEntry_stack (room : 88 ≤ (base tss c).toNat) : ∃ espDummy,
    Stacked (syscallEntry (interrupt tss none c)) ([c.ebx, c.ecx, c.edx] ++ intrStack 0x80#32 0#32 espDummy c) ∧
      (syscallEntry (interrupt tss none c)).esp = down (base tss c) (3 + (frameWords c + 1)) ∧
      ∀ x, x < (base tss c).toNat - 88 ∨ (base tss c).toNat ≤ x → (syscallEntry (interrupt tss none c)).mem x = c.mem x := by
  obtain ⟨espDummy, entry⟩ := @syscallEntry_eq tss c
  have words : (intrStack 0x80#32 0#32 espDummy c).reverse ++ [c.edx, c.ecx, c.ebx] =
      ([c.ebx, c.ecx, c.edx] ++ intrStack 0x80#32 0#32 espDummy c).reverse := by
    rw [List.reverse_append]
    rfl
  have len : ([c.ebx, c.ecx, c.edx] ++ intrStack 0x80#32 0#32 espDummy c).length = 3 + (frameWords c + 1) := by
    rw [List.length_append, intrStack_length]
    rfl
  have few := frameWords_bounds c
  have place : (served tss c).esp.toNat = (base tss c).toNat := rfl
  rw [words] at entry
  obtain ⟨stacked, -, out⟩ := served_room entry (by omega)
  refine ⟨espDummy, stacked, ?_, fun x outside => ?_⟩
  · rw [entry, Machine.pushes_esp, List.length_reverse, len]
    rfl
  · rw [out x (by omega)]
    rfl

theorem syscallEntry_regs : (syscallEntry (interrupt tss none c)).eax = c.eax ∧
    (syscallEntry (interrupt tss none c)).ss = if IsUser c.cs then tss.ss0 else c.ss := by
  obtain ⟨espDummy, entry⟩ := @syscallEntry_eq tss c
  rw [entry, Machine.pushes_regs]
  exact ⟨rfl, rfl⟩

/-- The registers come back from the frame, with the result in `eax`. -/
theorem intSyscall_eq (room : 88 ≤ (base tss c).toNat)
    (keeps : Keeps 3 (frameWords c + 1) (syscallEntry (interrupt tss none c))
      (syscallTable c.eax (syscallEntry (interrupt tss none c)))) :
    ∃ m, intSyscall tss syscallTable c =
        { c with eax := (syscallTable c.eax (syscallEntry (interrupt tss none c))).eax, mem := m } ∧
      ∀ x, x < (base tss c).toNat - 76 ∨ (base tss c).toNat ≤ x →
        m x = (syscallTable c.eax (syscallEntry (interrupt tss none c))).mem x := by
  obtain ⟨selected, stack⟩ := @syscallEntry_regs tss c
  obtain ⟨espDummy, stacked, pointer, -⟩ := syscallEntry_stack room
  have runs : intSyscall tss syscallTable c = syscallExit (syscallTable c.eax (syscallEntry (interrupt tss none c))) := by
    show syscallExit (syscallTable (syscallEntry (interrupt tss none c)).eax _) = _
    rw [selected]
  rw [runs]
  generalize syscallEntry (interrupt tss none c) = d at keeps stack stacked pointer ⊢
  generalize syscallTable c.eax d = d' at keeps ⊢
  have few := frameWords_bounds c
  have bound := (base tss c).isLt
  have esp : d.esp.toNat = (base tss c).toNat - 4 * (3 + (frameWords c + 1)) := by
    rw [pointer, toNat_down (by omega)]
  have behind : up d.esp 3 = down (base tss c) (frameWords c + 1) := by
    rw [pointer, Nat.add_comm, ← down_down, up_down]
  have above : (up d.esp 3).toNat = d.esp.toNat + 4 * 3 := toNat_up (by omega)
  have frame : Stacked (d'.drop 3) (intrStack 0x80#32 0#32 espDummy c) := by
    refine ⟨?_, ?_⟩
    · show HoldsWords d'.mem (up d'.esp 3).toNat _
      rw [keeps.esp, above]
      exact @Stacked.kept d d' [c.ebx, c.ecx, c.edx] _ stacked (by rwa [intrStack_length])
    · show (up d'.esp 3).toNat + _ ≤ _
      rw [keeps.esp, intrStack_length]
      omega
  refine ⟨_, syscallExit_eq frame fun kernel => ⟨?_, ?_⟩, fun x outside => store_out ?_⟩
  · rw [keeps.esp, behind, frameWords, if_neg kernel, base, if_neg kernel]
    exact up_down
  · rw [keeps.ss, stack, if_neg kernel]
  · rw [keeps.esp, toNat_up (by omega)]
    omega

/-- **A system call returns.** The function that `eax` selects finds `ebx`, `ecx` and `edx` as its arguments, and the
program has what it returns in `eax` and every other register as before. -/
theorem syscall_returns (room : 88 ≤ (base tss c).toNat)
    (keeps : Keeps 3 (frameWords c + 1) (syscallEntry (interrupt tss none c))
      (syscallTable c.eax (syscallEntry (interrupt tss none c)))) :
    (∃ m, intSyscall tss syscallTable c =
        { c with eax := (syscallTable c.eax (syscallEntry (interrupt tss none c))).eax, mem := m } ∧
      ∀ x, x < (base tss c).toNat - 76 ∨ (base tss c).toNat ≤ x →
        m x = (syscallTable c.eax (syscallEntry (interrupt tss none c))).mem x) ∧
      Stacked (syscallEntry (interrupt tss none c)) [c.ebx, c.ecx, c.edx] ∧
      ∀ x, x < (base tss c).toNat - 88 ∨ (base tss c).toNat ≤ x → (syscallEntry (interrupt tss none c)).mem x = c.mem x := by
  obtain ⟨espDummy, stacked, -, out⟩ := syscallEntry_stack room
  exact ⟨intSyscall_eq room keeps, stacked.front, out⟩

end Returns

section Examples

/-- A program of ring 3, and a task state segment with the stack of its task. -/
def userProgram : Machine :=
  ⟨1#32, 2#32, 3#32, 4#32, 0xbfffff00#32, 5#32, 6#32, 7#32, 0x08048000#32, 0x202#32, 0x2b#16, 0x33#16, 0x33#16, 0x33#16, 0x33#16,
    0#16, fun _ => 0#8⟩

def userTss : Tss := ⟨0xc0101000#32, selectorKStack⟩

/-- A function of the kernel that returns its second argument. -/
def second (d : Machine) : Machine := { d with eax := d.top 1, ecx := 9#32 }

theorem second_keeps (args words : Nat) (d : Machine) : Keeps args words d (second d) := ⟨rfl, rfl, fun _ _ _ => rfl⟩

/-- The timer interrupts a program of ring 3, and its handler uses registers. -/
theorem interrupt_transparent_timer : ∃ m, serveInterrupt userTss 0x20 none second userProgram = { userProgram with mem := m } :=
  ⟨_, (interrupt_transparent (by decide) (by decide) (second_keeps _ _ _)).1⟩

/-- A system call that returns its second argument. -/
theorem syscall_returns_second : ∃ m,
    intSyscall userTss (fun _ => second) userProgram = { userProgram with eax := 2#32, mem := m } := by
  obtain ⟨⟨m, returned, -⟩, args, -⟩ := @syscall_returns userTss userProgram (fun _ => second) (by decide) (second_keeps _ _ _)
  have two : (second (syscallEntry (interrupt userTss none userProgram))).eax = 2#32 := args.top (show 1 < 3 by decide)
  rw [two] at returned
  exact ⟨m, returned⟩

end Examples

end Sparrow.Trap
