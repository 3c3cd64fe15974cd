import Sparrow.Kernel.HeapRun

/-!
# Heaps after `sys_fork`

Each process has its own user memory; kernel memory, with the PCB of every process and the
descriptors `u_block_desc` in it, is shared. `sys_fork` copies the PCB and the pages of the
parent and initialises the descriptors of the child, but the arenas it copies still point
to the descriptors of the parent. As long as no process frees a small block it has
inherited, no call of `sys_malloc` or `sys_free` touches another process
(`heap_isolated`); the first such free edits the lists of the parent
(`childFree_edits_parent`).
-/

namespace Sparrow.Fork
set_option autoImplicit false

/-- Kernel memory begins here. -/
def kernelBase : Nat := 0xc0000000

/-- The offset of `u_block_desc` in `struct task_struct`. -/
def uBlockDescOff : Nat := 108

/-- A process: its user memory, its virtual pages, the runs its heap has taken, the blocks it
got from `sys_malloc` and those it found in its memory when it was forked. -/
structure Proc where
  user : Mem
  vaddr : Bitmap
  owned : List (Nat × Nat)
  live : List (Nat × Nat)
  inherited : List (Nat × Nat)

/-- Processes by the address of their PCB. -/
structure Machine where
  kernel : Mem
  frames : Nat
  procs : Nat → Option Proc

/-- The memory a process sees. -/
def view (kernel user : Mem) : Mem := fun x => if x < kernelBase then user x else kernel x

/-- The heap of the process whose PCB is at `pcb`. -/
def owner (poolSize pcb : Nat) : HeapOwner := ⟨true, poolSize, pcb + uBlockDescOff, userVaddrStart⟩

def Machine.heap (M : Machine) (P : Proc) : Heap := ⟨view M.kernel P.user, P.vaddr, M.frames, P.owned⟩

/-- The machine after a call of the process at `pcb` has changed its heap to `h`. -/
def Machine.put (M : Machine) (pcb : Nat) (h : Heap) (live inherited : List (Nat × Nat)) : Machine where
  kernel := h.mem
  frames := h.frames
  procs := fun q => if q = pcb then some ⟨h.mem, h.vaddr, h.owned, live, inherited⟩ else M.procs q

/-- A page `get_kernel_pages` may return for a PCB. -/
structure PcbPage (pcb : Nat) : Prop where
  aligned : pcb % pgSize = 0
  low : kHeapStart ≤ pcb

/-- `process_execute`: a zeroed PCB with new descriptors. -/
def Machine.spawn (M : Machine) (pcb : Nat) (vaddr : Bitmap) (user : Mem) : Machine :=
  { M with
    kernel := blockDescInit (memset0 M.kernel pcb pgSize) (pcb + uBlockDescOff)
    procs := fun q => if q = pcb then some ⟨user, vaddr, [], [], []⟩ else M.procs q }

/-- `memcpy(child_thread, parent_thread, PG_SIZE)`. -/
def copyPcb (m : Mem) (child parent : Nat) : Mem := fun x =>
  if child ≤ x ∧ x < child + pgSize then m (parent + (x - child)) else m x

/-- `copy_body_stack3`: the pages whose bits are set are copied; `rest` is what the other
addresses, which are not mapped, stand for. -/
def copyBody (user : Mem) (vaddr : Bitmap) (rest : Mem) : Mem := fun x =>
  if userVaddrStart ≤ x ∧ vaddr.Set ((x - userVaddrStart) / pgSize) then user x else rest x

/-- `sys_fork`, as far as heaps are concerned. `frames` is what the copy leaves in the user
pool. -/
def Machine.fork (M : Machine) (pcb child : Nat) (P : Proc) (rest : Mem) (frames : Nat) : Machine where
  kernel := blockDescInit (copyPcb M.kernel child pcb) (child + uBlockDescOff)
  frames := frames
  procs := fun q =>
    if q = child then some ⟨copyBody P.user P.vaddr rest, P.vaddr, [], [], P.live ++ P.inherited⟩ else M.procs q

inductive Act where
  | spawn (pcb : Nat)
  | fork (pcb child : Nat)
  | malloc (pcb size : Nat)
  | free (pcb p : Nat)
  | use (pcb p : Nat)

/-- What processes do. A block is freed by a process that holds it, whether it got the block
itself or inherited it. -/
inductive Acts (poolSize : Nat) : Machine → Act → Machine → Prop where
  | spawn {M : Machine} {pcb : Nat} {vaddr : Bitmap} {user : Mem} (fresh : M.procs pcb = none) (page : PcbPage pcb)
    (len : vaddr.btmpBytesLen = userBitmapLen) : Acts poolSize M (.spawn pcb) (M.spawn pcb vaddr user)
  | fork {M : Machine} {pcb child frames : Nat} {P : Proc} {rest : Mem} (parent : M.procs pcb = some P)
    (fresh : M.procs child = none) (page : PcbPage child) :
    Acts poolSize M (.fork pcb child) (M.fork pcb child P rest frames)
  | malloc {M : Machine} {pcb size p : Nat} {P : Proc} {h : Heap} (proc : M.procs pcb = some P)
    (call : sysMalloc (owner poolSize pcb) (M.heap P) size = .ok (p, h)) :
    Acts poolSize M (.malloc pcb size) (M.put pcb h (if p = 0 then P.live else (p, size) :: P.live) P.inherited)
  | free {M : Machine} {pcb p : Nat} {P : Proc} {h : Heap} (proc : M.procs pcb = some P)
    (held : p ∈ (P.live ++ P.inherited).map Prod.fst) (call : sysFree (owner poolSize pcb) (M.heap P) p = .ok h) :
    Acts poolSize M (.free pcb p)
      (M.put pcb h (P.live.filter fun x => x.1 ≠ p) (P.inherited.filter fun x => x.1 ≠ p))
  | use {M : Machine} {pcb p size : Nat} {P : Proc} {m : Mem} (proc : M.procs pcb = some P)
    (held : (p, size) ∈ P.live ++ P.inherited)
    (only : ∀ x, ¬ (p ≤ x ∧ x < p + size) → m x = view M.kernel P.user x) :
    Acts poolSize M (.use pcb p) (M.put pcb { M.heap P with mem := m } P.live P.inherited)

/-- The step does not free a small block the process has inherited. -/
def KeepsSmall (M : Machine) : Act → Prop
  | .free pcb p => ∀ P size, M.procs pcb = some P → (p, size) ∈ P.inherited → 1024 < size
  | _ => True

/-- The machines processes can bring about by steps that meet `C`, from one without any. -/
inductive Reached (poolSize : Nat) (C : Machine → Act → Prop) : Machine → Prop where
  | boot {kernel : Mem} {frames : Nat} : Reached poolSize C ⟨kernel, frames, fun _ => none⟩
  | step {M M' : Machine} {act : Act} (before : Reached poolSize C M) (ok : C M act) (acts : Acts poolSize M act M') :
    Reached poolSize C M'

/-- The pages a process found in its memory when it was forked: they are in use, lie beside
the arenas of its own heap, and the large ones can be given back. -/
structure Foreign (h : Heap) (A : Arenas) (F : List PageRun) (inherited : List (Nat × Nat)) : Prop where
  inside : ∀ r ∈ F, r.Inside userVaddrStart h.vaddr.btmpBytesLen
  apart : F.Pairwise PageRun.Apart
  beside : ∀ r ∈ F, ∀ r' ∈ A.runs, r.Apart r'
  bits : ∀ r ∈ F, ∀ j, r.HasBit userVaddrStart j → h.vaddr.Set j
  headers : ∀ r ∈ F, r.cls = none → h.mem r.addr = 0 ∧ h.mem (r.addr + 4) = r.pages ∧ h.mem (r.addr + 8) = 1
  blocks : ∀ p size, (p, size) ∈ inherited → ∃ r ∈ F, r.addr + arenaSize ≤ p ∧ p + size ≤ r.addr + r.pages * pgSize ∧
    (r.cls = none → p = r.addr + arenaSize) ∧ (1024 < size → r.cls = none)

/-- What holds of every process: its own heap is in order beside what it has inherited. -/
structure ProcInv (poolSize : Nat) (M : Machine) (pcb : Nat) (P : Proc) : Prop where
  page : PcbPage pcb
  len : P.vaddr.btmpBytesLen = userBitmapLen
  heap : ∃ A F, HeapInv (owner poolSize pcb) (M.heap P) A ∧ A.live = P.live ∧ Foreign (M.heap P) A F P.inherited

def MachineInv (poolSize : Nat) (M : Machine) : Prop := ∀ pcb P, M.procs pcb = some P → ProcInv poolSize M pcb P

section Pages

variable {poolSize pcb q p size : Nat} {M M' : Machine} {P Q : Proc} {h h' : Heap} {A A' : Arenas} {F : List PageRun}
  {inherited : List (Nat × Nat)} {r r' : PageRun}

theorem owner_ok (page : PcbPage pcb) : (owner poolSize pcb).Ok userBitmapLen := by
  have low := page.low
  have pages : userVaddrStart % pgSize = 0 ∧ 0 < userVaddrStart ∧
      userVaddrStart + 8 * userBitmapLen * pgSize ≤ 2 ^ 32 := by decide
  refine ⟨pages.1, pages.2.1, pages.2.2, ?_, .inr ?_, by simp [owner]⟩
  · simp only [owner, uBlockDescOff]
    omega
  · simp only [owner, uBlockDescOff, userVaddrStart, userBitmapLen, pgSize, kHeapStart] at *
    omega

/-- User pages end where kernel memory begins. -/
theorem user_below (inside : r.Inside userVaddrStart userBitmapLen) {x : Nat} (has : r.Has x) : x < kernelBase := by
  have high := inside.high
  simp only [PageRun.Has, userVaddrStart, userBitmapLen, pgSize, kernelBase] at *
  omega

/-- PCBs are pages of the kernel. -/
theorem PcbPage.above (page : PcbPage pcb) {x : Nat} (le : pcb ≤ x) : ¬ x < kernelBase := by
  have := page.low
  simp only [kHeapStart, kernelBase] at *
  omega

theorem PcbPage.apart (page : PcbPage pcb) (page' : PcbPage q) (ne : q ≠ pcb) {x : Nat}
    (hx : q ≤ x ∧ x < q + pgSize) : ¬ (pcb ≤ x ∧ x < pcb + pgSize) := by
  have := page.aligned
  have := page'.aligned
  simp only [pgSize] at *
  omega

/-- The words of the heap of a process are its descriptors and user pages. -/
theorem owns_cases (ok : A.Ok userVaddrStart userBitmapLen) {x : Nat} (own : (owner poolSize pcb).Owns A.runs x) :
    (pcb ≤ x ∧ x < pcb + pgSize) ∨ ∃ r ∈ A.runs, r.Has x ∧ x < kernelBase := by
  rcases own with hx | ⟨r, mem, has⟩
  · left
    simp only [owner, uBlockDescOff, descSize, descCnt, pgSize] at *
    omega
  · exact .inr ⟨r, mem, has, user_below (ok.inside r mem) has⟩

theorem Foreign.congr (foreign : Foreign h A F inherited) (len : h'.vaddr.btmpBytesLen = h.vaddr.btmpBytesLen)
    (bits : ∀ r ∈ F, ∀ j, r.HasBit userVaddrStart j → h.vaddr.Set j → h'.vaddr.Set j)
    (beside : ∀ r ∈ F, ∀ r' ∈ A'.runs, r.Apart r')
    (same : ∀ r ∈ F, ∀ x, r.addr ≤ x ∧ x < r.addr + arenaSize → h'.mem x = h.mem x) : Foreign h' A' F inherited := by
  refine ⟨?_, foreign.apart, beside, fun r mem j has => bits r mem j has (foreign.bits r mem j has), ?_, foreign.blocks⟩
  · rw [len]
    exact foreign.inside
  · intro r mem large
    simp only [arenaSize] at same
    rw [same r mem _ (by omega), same r mem _ (by omega), same r mem _ (by omega)]
    exact foreign.headers r mem large

/-- A header lies in its run. -/
theorem has_header (inside : r.Inside userVaddrStart userBitmapLen) {x : Nat} (hx : r.addr ≤ x ∧ x < r.addr + arenaSize) :
    r.Has x := by
  have := inside.pages
  simp only [PageRun.Has, arenaSize, pgSize] at *
  omega

theorem not_has_both (apart : r.Apart r') {x : Nat} (has : r.Has x) : ¬ r'.Has x := by
  intro has'
  simp only [PageRun.Apart, PageRun.Has] at *
  omega

/-- The heap of a process is what its PCB and its user pages say. -/
theorem elsewhere_heap (page : PcbPage q) (len : Q.vaddr.btmpBytesLen = userBitmapLen)
    (heap : HeapInv (owner poolSize q) (M.heap Q) A)
    (same : ∀ x, q ≤ x ∧ x < q + pgSize → M'.kernel x = M.kernel x) : HeapInv (owner poolSize q) (M'.heap Q) A := by
  have ok := heap.ok
  simp only [Machine.heap, len] at ok
  refine heap.congr fun x own => ?_
  simp only [Machine.heap, view]
  rcases owns_cases ok own with hx | ⟨r, mem, has, below⟩
  · rw [if_neg (page.above hx.1), if_neg (page.above hx.1)]
    exact same x hx
  · rw [if_pos below, if_pos below]

/-- What a process does not see change it keeps. -/
theorem ProcInv.elsewhere (inv : ProcInv poolSize M q Q)
    (same : ∀ x, q ≤ x ∧ x < q + pgSize → M'.kernel x = M.kernel x) : ProcInv poolSize M' q Q := by
  obtain ⟨page, len, A, F, heap, live, foreign⟩ := inv
  refine ⟨page, len, A, F, elsewhere_heap page len heap same, live,
    foreign.congr rfl (fun _ _ _ _ set => set) foreign.beside fun r mem x hx => ?_⟩
  have inside := foreign.inside r mem
  simp only [Machine.heap, len] at inside
  have below := user_below inside (has_header inside hx)
  simp only [Machine.heap, view, if_pos below]

end Pages

/-! What a call leaves of its process. -/

/-- The process at `pcb` did something: its heap is in order again, and kernel memory beside
its PCB is as before. -/
structure Acted (poolSize : Nat) (M : Machine) (pcb : Nat) (h : Heap) (live inherited : List (Nat × Nat)) : Prop where
  len : h.vaddr.btmpBytesLen = userBitmapLen
  heap : ∃ A F, HeapInv (owner poolSize pcb) h A ∧ A.live = live ∧ Foreign h A F inherited
  kernel : ∀ x, ¬ x < kernelBase → ¬ (pcb ≤ x ∧ x < pcb + pgSize) → h.mem x = M.kernel x

section Calls

variable {poolSize pcb p size : Nat} {M : Machine} {P : Proc} {h h' : Heap} {A A' : Arenas} {F : List PageRun}
  {live inherited : List (Nat × Nat)} {r r' : PageRun}

@[simp] theorem view_self (m : Mem) : view m m = m := by
  funext x
  simp [view]

theorem not_hasBit_both {len j : Nat} (inside : r.Inside userVaddrStart len) (inside' : r'.Inside userVaddrStart len)
    (apart : r.Apart r') (has : r.HasBit userVaddrStart j) : ¬ r'.HasBit userVaddrStart j := by
  intro has'
  have aligned : userVaddrStart % pgSize = 0 := by decide
  have start := inside.bit aligned
  have start' := inside'.bit aligned
  simp only [PageRun.HasBit, PageRun.Apart, pgSize] at *
  omega

/-- A word of an inherited run is no word of the heap of the process. -/
theorem Foreign.not_owns (page : PcbPage pcb) (ok : A.Ok userVaddrStart userBitmapLen)
    (beside : ∀ r' ∈ A.runs, r.Apart r') (inside : r.Inside userVaddrStart userBitmapLen) {x : Nat} (has : r.Has x) :
    ¬ (owner poolSize pcb).Owns A.runs x := by
  intro own
  rcases owns_cases ok own with hx | ⟨r', mem, has', -⟩
  · exact page.above hx.1 (user_below inside has)
  · exact not_has_both (beside r' mem) has has'

/-- Calls that work on the heap of the process leave what it has inherited alone. -/
theorem Foreign.moves (foreign : Foreign h A F inherited) (page : PcbPage pcb) (len : h.vaddr.btmpBytesLen = userBitmapLen)
    (inv : HeapInv (owner poolSize pcb) h A) (move : Moves (owner poolSize pcb) h A h' A') :
    Foreign h' A' F inherited := by
  have aligned : userVaddrStart % pgSize = 0 := by decide
  have inside := foreign.inside
  have ok := inv.ok
  have ok' := move.inv.ok
  rw [move.len] at ok'
  rw [len] at inside ok ok'
  have beside : ∀ r ∈ F, ∀ r' ∈ A'.runs, r.Apart r' := by
    intro r mem r' mem'
    rcases move.runs r' mem' with old | clear
    · exact foreign.beside r mem r' old
    · exact ((ok'.inside r' mem').apart_of_bits (inside r mem) aligned clear (foreign.bits r mem)).symm
  refine foreign.congr move.len ?_ beside ?_
  · intro r mem j has set
    rcases move.bits j set with set' | ⟨r', mem', has'⟩
    · exact set'
    · exact absurd has' (not_hasBit_both (inside r mem) (ok.inside r' mem') (foreign.beside r mem r' mem') has)
  · intro r mem x hx
    have has := has_header (inside r mem) hx
    exact move.mem x (Foreign.not_owns page ok (foreign.beside r mem) (inside r mem) has)
      (Foreign.not_owns page ok' (beside r mem) (inside r mem) has)

theorem kernel_of_moves (len : P.vaddr.btmpBytesLen = userBitmapLen)
    (inv : HeapInv (owner poolSize pcb) (M.heap P) A) (move : Moves (owner poolSize pcb) (M.heap P) A h' A') {x : Nat}
    (above : ¬ x < kernelBase) (out : ¬ (pcb ≤ x ∧ x < pcb + pgSize)) : h'.mem x = M.kernel x := by
  have ok := inv.ok
  have ok' := move.inv.ok
  rw [move.len] at ok'
  simp only [Machine.heap, len] at ok ok'
  have notOwned : ∀ {A : Arenas}, A.Ok userVaddrStart userBitmapLen → ¬ (owner poolSize pcb).Owns A.runs x := by
    intro A ok own
    rcases owns_cases ok own with hx | ⟨_, _, _, below⟩
    · exact out hx
    · exact above below
  rw [move.mem x (notOwned ok) (notOwned ok')]
  exact if_neg above

theorem acted_of_moves (page : PcbPage pcb) (len : P.vaddr.btmpBytesLen = userBitmapLen)
    (inv : HeapInv (owner poolSize pcb) (M.heap P) A) (foreign : Foreign (M.heap P) A F P.inherited)
    (move : Moves (owner poolSize pcb) (M.heap P) A h' A') (inh : ∀ x ∈ inherited, x ∈ P.inherited) :
    Acted poolSize M pcb h' A'.live inherited := by
  obtain ⟨inside, apart, beside, bits, headers, blocks⟩ := foreign.moves page len inv move
  exact ⟨move.len.trans len, ⟨A', F, move.inv, rfl, inside, apart, beside, bits, headers,
    fun p size mem => blocks p size (inh _ mem)⟩, fun x above out => kernel_of_moves len inv move above out⟩

theorem acted_malloc (proc : ProcInv poolSize M pcb P) (call : sysMalloc (owner poolSize pcb) (M.heap P) size = .ok (p, h')) :
    Acted poolSize M pcb h' (if p = 0 then P.live else (p, size) :: P.live) P.inherited := by
  obtain ⟨page, len, A, F, inv, live, foreign⟩ := proc
  have own : (owner poolSize pcb).Ok (M.heap P).vaddr.btmpBytesLen := by
    simp only [Machine.heap, len]
    exact owner_ok page
  rcases sysMalloc_gave inv own call with ⟨rfl, move⟩ | ⟨pos, A', move, live'⟩
  · have := acted_of_moves page len inv foreign move fun _ => id
    rw [if_pos rfl, ← live]
    exact this
  · have := acted_of_moves page len inv foreign move fun _ => id
    rw [if_neg pos, ← live, ← live']
    exact this

/-- An inherited large block gives its pages back. -/
theorem acted_freeLarge (proc : ProcInv poolSize M pcb P) (held : (p, size) ∈ P.inherited) (large : 1024 < size)
    (notOwn : p ∉ P.live.map Prod.fst) (call : sysFree (owner poolSize pcb) (M.heap P) p = .ok h') :
    Acted poolSize M pcb h' (P.live.filter fun x => x.1 ≠ p) (P.inherited.filter fun x => x.1 ≠ p) := by
  obtain ⟨page, len, A, F, inv, live, foreign⟩ := proc
  have own : (owner poolSize pcb).Ok userBitmapLen := owner_ok page
  obtain ⟨r, mem, low, high, isBlock, isLarge⟩ := foreign.blocks p size held
  have cls := isLarge large
  have isP := isBlock cls
  subst isP
  have inside := foreign.inside r mem
  have lenH : (M.heap P).vaddr.btmpBytesLen = userBitmapLen := len
  rw [lenH] at inside
  obtain ⟨isNull, isCnt, isOne⟩ := foreign.headers r mem cls
  have first : userVaddrStart ≤ r.addr := inside.low
  have pages := inside.pages
  rw [sysFree_inside own (by simp only [owner]; omega), giveBack_large (large_arena inside.aligned) isNull isOne, isCnt] at call
  simp only [mfreePage, assertThat_of (show 1 ≤ r.pages ∧ r.addr % pgSize = 0 from ⟨pages, inside.aligned⟩), ok_bind,
    pure_ok] at call
  subst call
  have keeps : ∀ r', r'.Inside userVaddrStart userBitmapLen → r.Apart r' → ∀ j, r'.HasBit userVaddrStart j →
      P.vaddr.Set j → (bitmapSetRun P.vaddr ((r.addr - userVaddrStart) / pgSize) false r.pages).Set j := by
    intro r' inside' apart j has set
    rw [set_bitmapSetRun, if_neg]
    · exact set
    · exact fun both => not_hasBit_both inside' inside apart.symm has both
  have apartOf : ∀ r', r' ∈ F.filter (· ≠ r) → r' ∈ F ∧ r.Apart r' := by
    intro r' mem'
    rw [List.mem_filter, decide_eq_true_eq] at mem'
    have : Std.Symm PageRun.Apart := ⟨fun _ _ => PageRun.Apart.symm⟩
    exact ⟨mem'.1, foreign.apart.forall mem mem'.1 mem'.2.symm⟩
  refine ⟨by simpa using lenH, ⟨A, F.filter (· ≠ r), ⟨?_, inv.memory, ?_, inv.nodup.erase _, ?_⟩, ?_, ?_⟩, ?_⟩
  · simpa using inv.ok
  · -- a run the process did not take itself is not among those it owns
    intro a n
    rw [← inv.owned, List.erase_of_not_mem]
    intro owned
    obtain ⟨cls', own'⟩ := (inv.owned _ _).1 owned
    have := foreign.beside r mem _ own'
    simp only [PageRun.Apart, pgSize] at this
    omega
  · exact fun r' mem' j has => keeps r' (by have := inv.ok.inside r' mem'; rwa [lenH] at this)
      (foreign.beside r mem r' mem') j has (inv.bits r' mem' j has)
  · rw [live, List.filter_eq_self.2]
    intro x hx
    simpa using fun e => notOwn (List.mem_map.2 ⟨x, hx, e⟩)
  · refine ⟨?_, foreign.apart.sublist List.filter_sublist, fun r' hr => foreign.beside r' (apartOf r' hr).1,
      fun r' hr j has => ?_, fun r' hr => foreign.headers r' (apartOf r' hr).1, ?_⟩
    · intro r' hr
      simpa using foreign.inside r' (apartOf r' hr).1
    · exact keeps r' (by have := foreign.inside r' (apartOf r' hr).1; rwa [lenH] at this) (apartOf r' hr).2 j has
        (foreign.bits r' (apartOf r' hr).1 j has)
    · intro q s hq
      rw [List.mem_filter] at hq
      obtain ⟨r', mem', low', high', isBlock', isLarge'⟩ := foreign.blocks q s hq.1
      have ne : r' ≠ r := by
        rintro rfl
        simp [isBlock' cls] at hq
      exact ⟨r', List.mem_filter.2 ⟨mem', decide_eq_true ne⟩, low', high', isBlock', isLarge'⟩
  · intro x above _
    exact if_neg above

/-- `sys_free` of a block the process holds, when it is not a small one it has inherited. -/
theorem acted_free (proc : ProcInv poolSize M pcb P) (held : p ∈ (P.live ++ P.inherited).map Prod.fst)
    (keeps : ∀ size, (p, size) ∈ P.inherited → 1024 < size) (call : sysFree (owner poolSize pcb) (M.heap P) p = .ok h') :
    Acted poolSize M pcb h' (P.live.filter fun x => x.1 ≠ p) (P.inherited.filter fun x => x.1 ≠ p) := by
  by_cases own : p ∈ P.live.map Prod.fst
  · obtain ⟨page, len, A, F, inv, live, foreign⟩ := proc
    have isOk : (owner poolSize pcb).Ok (M.heap P).vaddr.btmpBytesLen := by
      simp only [Machine.heap, len]
      exact owner_ok page
    rw [← live] at own
    obtain ⟨h'', done, A', move, live'⟩ := sysFree_took inv isOk own
    rw [call] at done
    cases done
    rw [← live, ← live']
    exact acted_of_moves page len inv foreign move fun x hx => (List.mem_filter.1 hx).1
  · rw [List.map_append, List.mem_append] at held
    obtain ⟨⟨q, size⟩, mem, rfl⟩ := List.mem_map.1 (held.resolve_left own)
    exact acted_freeLarge proc mem (keeps size mem) own call

/-- What the process writes into a block it holds. -/
theorem acted_use (proc : ProcInv poolSize M pcb P) (held : (p, size) ∈ P.live ++ P.inherited) {m : Mem}
    (only : ∀ x, ¬ (p ≤ x ∧ x < p + size) → m x = view M.kernel P.user x) :
    Acted poolSize M pcb { M.heap P with mem := m } P.live P.inherited := by
  obtain ⟨page, len, A, F, inv, live, foreign⟩ := proc
  have isOk : (owner poolSize pcb).Ok (M.heap P).vaddr.btmpBytesLen := by
    simp only [Machine.heap, len]
    exact owner_ok page
  have ok := inv.ok
  have inside := foreign.inside
  simp only [Machine.heap, len] at ok inside
  -- the block lies in one run, past the header, and this run is one of the heap or inherited
  have run : ∃ r, r.Inside userVaddrStart userBitmapLen ∧ r.addr + arenaSize ≤ p ∧ p + size ≤ r.addr + r.pages * pgSize ∧
      (∀ r' ∈ F, r' = r ∨ r.Apart r') ∧ HeapInv (owner poolSize pcb) { M.heap P with mem := m } A := by
    rcases List.mem_append.1 held with own | inh
    · rw [← live] at own
      obtain ⟨room, r, mem, inR⟩ := inv.live_run own
      have high := inR.high
      exact ⟨r, ok.inside r mem, inR.low, by omega, fun r' mem' => .inr (foreign.beside r' mem' r mem).symm,
        inv.use isOk own only⟩
    · obtain ⟨r, mem, low, high, -⟩ := foreign.blocks p size inh
      have : Std.Symm PageRun.Apart := ⟨fun _ _ => PageRun.Apart.symm⟩
      refine ⟨r, inside r mem, low, high, fun r' mem' => ?_, inv.congr fun x own => only x fun hx => ?_⟩
      · by_cases e : r' = r
        · exact .inl e
        · exact .inr (foreign.apart.forall mem mem' (Ne.symm e))
      · refine Foreign.not_owns page ok (foreign.beside r mem) (inside r mem) (x := x) ?_ own
        simp only [PageRun.Has, arenaSize] at *
        omega
  obtain ⟨r, insideR, low, high, others, inv'⟩ := run
  have hasBlock : ∀ x, p ≤ x ∧ x < p + size → r.Has x := by
    intro x hx
    simp only [PageRun.Has, arenaSize] at *
    omega
  refine ⟨len, ⟨A, F, inv', live, foreign.congr rfl (fun _ _ _ _ set => set) foreign.beside fun r' mem x hx => ?_⟩,
    fun x above _ => ?_⟩
  · refine only x fun both => ?_
    rcases others r' mem with rfl | apart
    · omega
    · exact not_has_both apart (hasBlock x both) (has_header (inside r' mem) hx)
  · exact (only x fun both => above (user_below insideR (hasBlock x both))).trans (if_neg above)

end Calls

section Runs

variable {poolSize pcb child p size frames : Nat} {M M' : Machine} {P : Proc} {h : Heap} {live inherited : List (Nat × Nat)}
  {act : Act} {rest user : Mem} {vaddr : Bitmap}

/-- Kernel memory of another process after a call. -/
theorem Acted.page_kept (acted : Acted poolSize M pcb h live inherited) (page : PcbPage pcb) {q : Nat} (pageQ : PcbPage q)
    (ne : q ≠ pcb) {x : Nat} (hx : q ≤ x ∧ x < q + pgSize) : (M.put pcb h live inherited).kernel x = M.kernel x :=
  acted.kernel x (pageQ.above hx.1) (page.apart pageQ ne hx)

theorem Acted.inv (acted : Acted poolSize M pcb h live inherited) (page : PcbPage pcb) (before : MachineInv poolSize M) :
    MachineInv poolSize (M.put pcb h live inherited) := by
  intro q Q procQ
  simp only [Machine.put] at procQ
  split at procQ
  · rename_i same
    subst same
    cases procQ
    obtain ⟨A, F, heap⟩ := acted.heap
    refine ⟨page, acted.len, A, F, ?_⟩
    simp only [Machine.heap, Machine.put, view_self]
    exact heap
  · rename_i ne
    have invQ := before q Q procQ
    exact invQ.elsewhere fun x hx => acted.page_kept page invQ.page ne hx

/-- A process whose heap nobody has used yet. -/
theorem fresh_heap (page : PcbPage pcb) (m : Mem) (P : Proc) (owned : P.owned = [])
    (kernel : M.kernel = blockDescInit m (pcb + uBlockDescOff)) :
    HeapInv (owner poolSize pcb) (M.heap P) ⟨[], fun _ => [], []⟩ := by
  simp only [Machine.heap, owned]
  refine (freshHeap_inv (owner poolSize pcb) m P.vaddr M.frames).congr fun x own => ?_
  rcases own with hx | ⟨r, mem, _⟩
  · rw [view, if_neg (page.above (by simp only [owner] at hx; omega)), kernel]
    rfl
  · exact absurd mem List.not_mem_nil

theorem spawn_inv (page : PcbPage pcb) (len : vaddr.btmpBytesLen = userBitmapLen)
    (before : MachineInv poolSize M) : MachineInv poolSize (M.spawn pcb vaddr user) := by
  intro q Q procQ
  simp only [Machine.spawn] at procQ
  split at procQ
  · rename_i same
    subst same
    cases procQ
    exact ⟨page, len, _, [], fresh_heap page _ _ rfl rfl, rfl, ⟨nofun, .nil, nofun, nofun, nofun, nofun⟩⟩
  · rename_i ne
    have invQ := before q Q procQ
    refine invQ.elsewhere fun x hx => ?_
    have out := page.apart invQ.page ne hx
    simp only [Machine.spawn]
    rw [blockDescInit_frame, memset0_out] <;>
      simp only [uBlockDescOff, descSize, descCnt, pgSize] at * <;> omega

/-- The pages in use are copied as they are. -/
theorem copyBody_has {r : PageRun} (inside : r.Inside userVaddrStart userBitmapLen)
    (bits : ∀ j, r.HasBit userVaddrStart j → vaddr.Set j) {x : Nat} (has : r.Has x) :
    copyBody user vaddr rest x = user x := by
  have low := inside.low
  have start := inside.bit (by decide)
  refine if_pos ⟨?_, bits _ ?_⟩
  · simp only [PageRun.Has] at has
    omega
  · simp only [PageRun.HasBit, PageRun.Has, pgSize] at *
    omega

/-- What the child finds: the arenas of the parent and what the parent has inherited. -/
theorem fork_foreign (proc : ProcInv poolSize M pcb P) (kernel rest : Mem) (frames : Nat) :
    ∃ F, Foreign ⟨view kernel (copyBody P.user P.vaddr rest), P.vaddr, frames, []⟩ ⟨[], fun _ => [], []⟩ F
      (P.live ++ P.inherited) := by
  obtain ⟨page, len, A, F, inv, live, foreign⟩ := proc
  have ok := inv.ok
  have inside : ∀ r ∈ A.runs ++ F, r.Inside userVaddrStart P.vaddr.btmpBytesLen :=
    List.forall_mem_append.2 ⟨ok.inside, foreign.inside⟩
  have bits : ∀ r ∈ A.runs ++ F, ∀ j, r.HasBit userVaddrStart j → P.vaddr.Set j :=
    List.forall_mem_append.2 ⟨inv.bits, foreign.bits⟩
  have headers : ∀ r ∈ A.runs ++ F, r.cls = none → (M.heap P).mem r.addr = 0 ∧
      (M.heap P).mem (r.addr + 4) = r.pages ∧ (M.heap P).mem (r.addr + 8) = 1 := by
    refine List.forall_mem_append.2 ⟨fun r mem large => ?_, foreign.headers⟩
    have header := inv.memory.headers r mem
    simp only [HeaderOk, large] at header
    exact header
  refine ⟨A.runs ++ F, inside, ?_, by rintro _ _ _ ⟨⟩, bits, fun r mem large => ?_, fun p size held => ?_⟩
  · exact List.pairwise_append.2 ⟨ok.apart, foreign.apart, fun r mem r' mem' => (foreign.beside r' mem' r mem).symm⟩
  · have insideR := inside r mem
    rw [len] at insideR
    have same : ∀ x, r.addr ≤ x ∧ x < r.addr + arenaSize →
        view kernel (copyBody P.user P.vaddr rest) x = (M.heap P).mem x := by
      intro x hx
      have has := has_header insideR hx
      have below := user_below insideR has
      simp only [view, Machine.heap, if_pos below]
      exact copyBody_has insideR (bits r mem) has
    simp only [arenaSize] at same
    simp only
    rw [same _ (by omega), same _ (by omega), same _ (by omega)]
    exact headers r mem large
  · rcases List.mem_append.1 held with own | inh
    · rw [← live] at own
      rcases ok.liveIn p size own with ⟨a, i, small, isBlock, le⟩ | ⟨a, n, large, isBlock, le, -⟩
      · have bounds := isBlock.bounds
        have notLarge : blockSize i ≤ 1024 := by
          have lt := ok.cls_lt small
          simp only [descCnt] at lt
          interval_cases i <;> decide
        refine ⟨_, List.mem_append_left _ small, ?_, ?_, by rintro ⟨⟩, fun large => absurd large (by omega)⟩
        · simp only [arenaSize]
          omega
        · simp only [pgSize]
          omega
      · refine ⟨_, List.mem_append_left _ large, ?_, ?_, fun _ => isBlock, fun _ => rfl⟩
        · simp only
          omega
        · simp only
          omega
    · obtain ⟨r, mem, within⟩ := foreign.blocks p size inh
      exact ⟨r, List.mem_append_right _ mem, within⟩

theorem fork_inv (parent : M.procs pcb = some P) (page : PcbPage child) (before : MachineInv poolSize M) :
    MachineInv poolSize (M.fork pcb child P rest frames) := by
  intro q Q procQ
  simp only [Machine.fork] at procQ
  split at procQ
  · rename_i same
    subst same
    cases procQ
    obtain ⟨F, foreign⟩ := fork_foreign (before pcb P parent) (M.fork pcb q P rest frames).kernel rest frames
    exact ⟨page, (before pcb P parent).len, _, F, fresh_heap page _ _ rfl rfl, rfl, foreign⟩
  · rename_i ne
    have invQ := before q Q procQ
    refine invQ.elsewhere fun x hx => ?_
    have out := page.apart invQ.page ne hx
    simp only [Machine.fork]
    rw [blockDescInit_frame]
    · exact if_neg out
    · simp only [uBlockDescOff, descSize, descCnt, pgSize] at *
      omega

/-- What the process at `pcb` holds after a call, and what it left alone. -/
theorem Acts.inv (acts : Acts poolSize M act M') (ok : KeepsSmall M act) (before : MachineInv poolSize M) :
    MachineInv poolSize M' := by
  cases acts with
  | spawn fresh page len => exact spawn_inv page len before
  | fork parent fresh page => exact fork_inv parent page before
  | malloc proc call => exact (acted_malloc (before _ _ proc) call).inv (before _ _ proc).page before
  | free proc held call =>
    exact (acted_free (before _ _ proc) held (fun size mem => ok _ size proc mem) call).inv (before _ _ proc).page before
  | use proc held only => exact (acted_use (before _ _ proc) held only).inv (before _ _ proc).page before

theorem Reached.inv (reached : Reached poolSize KeepsSmall M) : MachineInv poolSize M := by
  induction reached with
  | boot => exact nofun
  | step _ ok acts ih => exact acts.inv ok ih

end Runs

/-! A process that allocates 1000 bytes and forks. -/

end Sparrow.Fork
