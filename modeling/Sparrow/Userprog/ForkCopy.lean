import Sparrow.Kernel.Translate
import Sparrow.Lib.Image
import Sparrow.Userprog.ForkFailed

/-!
# What a fork copies

`sys_fork` once more, now with the contents of the frames. The pages of the parent go one by
one through a page of the kernel into new frames of the child, with the directory of the one or
the other active. As no frame has two holders, no copy overwrites what another page contains
(`sysFork_copies`).
-/

namespace Sparrow.ForkCopy
set_option autoImplicit false

open Paging LifeCycle

/-- The allocator and the bytes of physical memory. Directories, page tables and bitmaps are kept
by the allocator. -/
structure Ram where
  mem : Memory
  phys : Image

/-- Physical memory, tasks and descriptors. -/
structure Machine where
  ram : Ram
  tasks : Reap.Tasks
  sys : Sys

def Machine.world (m : Machine) : World := ⟨m.ram.mem, m.tasks, m.sys⟩

/-- The frame an access to the page of `vaddr` goes to; without one it is a page fault. -/
def frameOf (s : Memory) (cur : Option Nat) (vaddr : Nat) : Exec Nat :=
  match s.frame cur vaddr with
  | some f => return f
  | none => throw .undefined

/-- `memset(vaddr, 0, cnt * PG_SIZE)`, for the address of a page. -/
def memsetPages (cur : Option Nat) : Nat → Nat → Ram → Exec Ram
  | 0, _, r => return r
  | cnt + 1, vaddr, r => do
    let f ← frameOf r.mem cur vaddr
    memsetPages cur cnt (vaddr + pgSize) { r with phys := fill r.phys f pgSize 0#8 }

/-- `memcpy(dst, src, cnt * PG_SIZE)`, for addresses of pages. -/
def memcpyPages (cur : Option Nat) : Nat → Nat → Nat → Ram → Exec Ram
  | 0, _, _, r => return r
  | cnt + 1, dst, src, r => do
    let f ← frameOf r.mem cur src
    let g ← frameOf r.mem cur dst
    memcpyPages cur cnt (dst + pgSize) (src + pgSize) { r with phys := splice r.phys g pgSize (shifted r.phys f) }

/-- `get_kernel_pages`. -/
def getKernelPages (r : Ram) (cur : Option Nat) (pgCnt : Nat) : Exec (Option Nat × Ram) := do
  match ← Paging.mallocPage r.mem cur .kernel pgCnt with
  | (none, mem) => return (none, { r with mem := mem })
  | (some vaddr, mem) =>
    let r ← memsetPages cur pgCnt vaddr { r with mem := mem }
    return (some vaddr, r)

/-- `copy_pcb_vaddrbitmap_stack0`, which returns the number of the child. The fields of the new task
that it sets are those of `sysFork` below. -/
def copyPcbVaddrbitmapStack0 (parent : Reap.TaskStruct) (own : TaskPages) (childThread : Nat) (m : Machine) :
    Exec (Option Nat × Machine) := do
  let ram ← memcpyPages (some parent.pid) 1 childThread own.pcb m.ram
  let (child, tasks) ← Reap.allocatePid m.tasks
  match ← getKernelPages ram (some parent.pid) bitmapPgCnt with
  | (none, ram) => return (none, { m with ram := ram, tasks := tasks })
  | (some vaddrBtmp, ram) =>
    let ram ← memcpyPages (some parent.pid) bitmapPgCnt vaddrBtmp own.vaddrBtmp ram
    return (some child, { m with ram := ram, tasks := tasks })

/-- The turn of `copy_body_stack3` for page `i`: the directory of the parent is active for the first
copy, that of the child for the rest. -/
def copyPage (parent child bufPage : Nat) (r : Ram) (i : Nat) : Exec Ram := do
  let progVaddr := i * pgSize + userVaddrStart
  let r ← memcpyPages (some parent) 1 bufPage progVaddr r
  let mem ← getAPageWithoutOpvaddrbitmap r.mem (some child) .user progVaddr
  memcpyPages (some child) 1 progVaddr bufPage { r with mem := mem }

/-- `copy_body_stack3`. -/
def copyBodyStack3 (r : Ram) (parent child bufPage : Nat) : Exec Ram :=
  forSetBits (r.mem.userVaddr parent) (copyPage parent child bufPage) r

/-- `copy_process`. -/
def copyProcess (parent : Reap.TaskStruct) (own : TaskPages) (childThread : Nat) (m : Machine) :
    Exec (Option Nat × Machine) := do
  match ← getKernelPages m.ram (some parent.pid) 1 with
  | (none, ram) => return (none, { m with ram := ram })
  | (some bufPage, ram) =>
    match ← copyPcbVaddrbitmapStack0 parent own childThread { m with ram := ram } with
    | (none, m) => return (none, m)
    | (some child, m) =>
      match ← getKernelPages m.ram (some parent.pid) 1 with
      | (none, ram) => return (none, { m with ram := ram })
      | (some _, ram) =>
        let ram ← copyBodyStack3 { ram with mem := newSpace ram.mem parent.pid child } parent.pid child bufPage
        let s ← updateInodeOpenCnts (m.sys.heapOf parent.pid) (m.sys.procs parent.pid).fdTable m.sys.fs
        let mem ← Paging.mfreePage ram.mem (some parent.pid) .kernel bufPage 1
        return (some child, { m with ram := { ram with mem := mem }, sys := { m.sys with fs := s } })

/-- `sys_fork` by `parent`, whose own kernel pages are `own`. -/
def sysFork (parent : Reap.TaskStruct) (own : TaskPages) (m : Machine) : Exec (Option Nat × Machine) := do
  match ← getKernelPages m.ram (some parent.pid) 1 with
  | (none, ram) => return (none, { m with ram := ram })
  | (some childThread, ram) =>
    assertThat (parent.user = true)
    match ← copyProcess parent own childThread { m with ram := ram } with
    | (none, m) => return (none, m)
    | (some child, m) =>
      return (some child, { m with
        tasks := { m.tasks with allList := m.tasks.allList ++
          [{ parent with pid := child, parentPid := parent.pid, status := .ready }] }
        sys := { m.sys.setProc child { m.sys.procs parent.pid with parentPid := parent.pid } with live := child :: m.sys.live } })

/-- The user pages of the process are those of its bitmap. -/
def MapsBits (s : Memory) (p : Nat) : Prop :=
  ∀ v, v < 0xc0000000 → v % pgSize = 0 → ((s.frame (some p) v).isSome ↔
    ∃ i, i < 8 * (s.userVaddr p).btmpBytesLen ∧ (s.userVaddr p).Set i ∧ v = pageAddr (some p) i)

/-- No allocation has failed so far. -/
def Machine.fed (m : Machine) : Machine := { m with ram := { m.ram with mem := { m.ram.mem with starved := false } } }

/-- The child has the pages of the parent in frames of its own, and the parent is as before. -/
structure Copies (parent child : Nat) (m m' : Machine) : Prop where
  frames : Frames m'.ram.mem
  bitmap : m'.ram.mem.userVaddr child = m'.ram.mem.userVaddr parent
  mapped : ∀ v, v < 0xc0000000 → v % pgSize = 0 →
    ((m'.ram.mem.frame (some child) v).isSome ↔ (m'.ram.mem.frame (some parent) v).isSome)
  contents : ∀ v f g, v < 0xc0000000 → v % pgSize = 0 → m'.ram.mem.frame (some parent) v = some f →
    m'.ram.mem.frame (some child) v = some g → ∀ o, o < pgSize → m'.ram.phys (g + o) = m'.ram.phys (f + o)
  distinct : ∀ v v' f g, v < 0xc0000000 → v % pgSize = 0 → v' < 0xc0000000 → v' % pgSize = 0 →
    m'.ram.mem.frame (some parent) v = some f → m'.ram.mem.frame (some child) v' = some g → f ≠ g
  parentBitmap : m'.ram.mem.userVaddr parent = m.ram.mem.userVaddr parent
  parentFrames : ∀ v, v < 0xc0000000 → m'.ram.mem.frame (some parent) v = m.ram.mem.frame (some parent) v
  parentContents : ∀ v f, v < 0xc0000000 → v % pgSize = 0 → m.ram.mem.frame (some parent) v = some f →
    ∀ o, o < pgSize → m'.ram.phys (f + o) = m.ram.phys (f + o)

section Pages

variable {s : Memory} {cur : Option Nat} {v f : Nat} {r r' : Ram}

theorem frameOf_ok : frameOf s cur v = .ok f ↔ s.frame cur v = some f := by
  rw [frameOf]
  split
  · rename_i g isFrame
    rw [pure_ok, isFrame, Option.some.injEq]
  · rename_i isNone
    rw [throw_ok, isNone]
    simp

/-- Filling pages is not the business of the allocator. -/
theorem memsetPages_mem : ∀ {n v : Nat} {r : Ram}, memsetPages cur n v r = .ok r' → r'.mem = r.mem := by
  intro n
  induction n with
  | zero =>
    intro v r call
    cases call
    rfl
  | succ n ih =>
    intro v r call
    simp only [memsetPages, bind_ok] at call
    obtain ⟨f, -, rest⟩ := call
    have kept := ih rest
    exact kept

theorem memcpyPages_mem : ∀ {n dst src : Nat} {r : Ram}, memcpyPages cur n dst src r = .ok r' → r'.mem = r.mem := by
  intro n
  induction n with
  | zero =>
    intro dst src r call
    cases call
    rfl
  | succ n ih =>
    intro dst src r call
    simp only [memcpyPages, bind_ok] at call
    obtain ⟨f, -, g, -, rest⟩ := call
    have kept := ih rest
    exact kept

/-- Frames of two pages do not overlap. -/
theorem splice_apart {i j p o g : Nat} {src : Image} (fr : Frames s) (buf : s.Holds (.page cur j) g) (held : s.Holds (.page (some p) i) f)
    (other : Holder.page cur j ≠ .page (some p) i) (lt : o < pgSize) (m : Image) : splice m g pgSize src (f + o) = m (f + o) := by
  have ne : g ≠ f := by
    rintro rfl
    exact other (fr.unique _ _ _ buf held)
  have aligned := (fr.ofPool buf).1.1
  have aligned' := (fr.ofPool held).1.1
  rw [splice_out]
  unfold pgSize at *
  omega

end Pages

/-! Pages of the kernel. -/

/-- Only kernel pages were taken, given back or written to. -/
structure Quiet (r r' : Ram) : Prop where
  kernel : KernelOnly r.mem r'.mem
  bytes : ∀ p i f o, r.mem.Holds (.page (some p) i) f → o < pgSize → r'.phys (f + o) = r.phys (f + o)

section Quiet

variable {r r' r1 r2 : Ram} {cur : Option Nat} {v i n dst src : Nat}

theorem Quiet.trans (h : Quiet r r1) (h' : Quiet r1 r2) : Quiet r r2 := by
  refine ⟨h.kernel.trans h'.kernel, fun p i f o held lt => ?_⟩
  rw [h'.bytes p i f o (h.kernel.holds.2 held) lt, h.bytes p i f o held lt]

theorem memsetPages_quiet : ∀ {n i : Nat} {r : Ram}, Frames r.mem → (∀ j, i ≤ j ∧ j < i + n → ∃ f, r.mem.Holds (.page none j) f) →
    memsetPages cur n (pageAddr none i) r = .ok r' → Quiet r r' := by
  intro n
  induction n with
  | zero =>
    intro i r fr _ call
    cases call
    exact ⟨.refl fr, fun _ _ _ _ _ _ => rfl⟩
  | succ n ih =>
    intro i r fr held call
    simp only [memsetPages, bind_ok, frameOf_ok] at call
    obtain ⟨f, isFrame, rest⟩ := call
    obtain ⟨g, here⟩ := held i (by omega)
    rw [frame_held fr.layout here, Option.some.injEq] at isFrame
    subst isFrame
    rw [pageAddr_succ] at rest
    have first : Quiet r { r with phys := fill r.phys g pgSize 0#8 } := by
      refine ⟨.refl fr, fun p k f o user lt => ?_⟩
      have apart : splice r.phys g pgSize (fun _ => 0#8) (f + o) = r.phys (f + o) := splice_apart fr here user (by simp) lt r.phys
      exact apart
    have later := ih (i := i + 1) first.kernel.frames (fun j run => held j (by omega)) rest
    exact first.trans later

theorem memcpyPages_quiet : ∀ {n i src : Nat} {r : Ram}, Frames r.mem →
    (∀ j, i ≤ j ∧ j < i + n → ∃ f, r.mem.Holds (.page none j) f) →
    memcpyPages cur n (pageAddr none i) src r = .ok r' → Quiet r r' := by
  intro n
  induction n with
  | zero =>
    intro i src r fr _ call
    cases call
    exact ⟨.refl fr, fun _ _ _ _ _ _ => rfl⟩
  | succ n ih =>
    intro i src r fr held call
    simp only [memcpyPages, bind_ok, frameOf_ok] at call
    obtain ⟨f, -, g, isFrame, rest⟩ := call
    obtain ⟨g', here⟩ := held i (by omega)
    rw [frame_held fr.layout here, Option.some.injEq] at isFrame
    subst isFrame
    rw [pageAddr_succ] at rest
    have first : Quiet r { r with phys := splice r.phys g' pgSize (shifted r.phys f) } :=
      ⟨.refl fr, fun p k f o user lt => splice_apart fr here user (by simp) lt r.phys⟩
    have later := ih (i := i + 1) first.kernel.frames (fun j run => held j (by omega)) rest
    exact first.trans later

/-- **`get_kernel_pages`**, when it finds them. -/
theorem getKernelPages_quiet {p : Nat} (fr : Frames r.mem) (call : getKernelPages r (some p) n = .ok (some v, r'))
    (fed : r'.mem.starved = false) : Quiet r r' ∧ (∀ k f, r.mem.Holds (.page none k) f → r'.mem.Holds (.page none k) f) ∧
      ∃ i, v = pageAddr none i ∧ ∀ j, i ≤ j ∧ j < i + n → ∃ f, r'.mem.Holds (.page none j) f := by
  simp only [getKernelPages, bind_ok, Prod.exists] at call
  obtain ⟨got, mem, malloc, call⟩ := call
  cases got with
  | none => cases call
  | some w =>
  simp only [bind_ok, pure_ok, Prod.mk.injEq, Option.some.injEq] at call
  obtain ⟨r1, cleared, rfl, rfl⟩ := call
  have same := memsetPages_mem cleared
  rw [same] at fed
  obtain ⟨kernel, kept, i, rfl, held⟩ := mallocPage_kernel fr malloc fed
  have zeros := memsetPages_quiet kernel.frames held cleared
  have taken : Quiet r { r with mem := mem } := ⟨kernel, fun _ _ _ _ _ _ => rfl⟩
  rw [same]
  exact ⟨taken.trans zeros, kept, i, rfl, held⟩

theorem getKernelPages_starved {got : Option Nat} (call : getKernelPages r cur n = .ok (got, r')) (fed : r'.mem.starved = false) :
    r.mem.starved = false := by
  simp only [getKernelPages, bind_ok, Prod.exists] at call
  obtain ⟨got1, mem, malloc, call⟩ := call
  cases got1 with
  | none =>
    cases call
    exact mallocPage_starved malloc fed
  | some w =>
    simp only [bind_ok, pure_ok, Prod.mk.injEq] at call
    obtain ⟨r1, cleared, -, rfl⟩ := call
    rw [memsetPages_mem cleared] at fed
    exact mallocPage_starved malloc fed

theorem getKernelPages_mem {got : Option Nat} (call : getKernelPages r cur n = .ok (got, r')) :
    Paging.mallocPage r.mem cur .kernel n = .ok (got, r'.mem) := by
  simp only [getKernelPages, bind_ok, Prod.exists] at call
  obtain ⟨got1, mem, malloc, call⟩ := call
  cases got1 with
  | none =>
    cases call
    exact malloc
  | some vaddr =>
    simp only [bind_ok, pure_ok, Prod.mk.injEq] at call
    obtain ⟨r1, cleared, rfl, rfl⟩ := call
    rw [memsetPages_mem cleared]
    exact malloc

theorem getKernelPages_users {got : Option Nat} (call : getKernelPages r cur n = .ok (got, r')) (q : Nat) :
    r'.mem.userVaddr q = r.mem.userVaddr q := by
  have marks := mallocPage_marks (getKernelPages_mem call)
  have other : some q ≠ space .kernel cur := by simp [space]
  exact marks.other other

end Quiet

/-! The pages of the parent. -/

section NewSpace

variable {s : Memory} {parent child q v k f : Nat}

theorem newSpace_other (ne : q ≠ child) : (newSpace s parent child).frame (some q) v = s.frame (some q) v := by
  refine frame_of_table ?_ fun _ _ => rfl
  simp only [Memory.table, newSpace, Option.some.injEq, if_neg ne]

/-- The new directory has no user page. -/
theorem newSpace_child (lt : pdeIdx v < 768) : (newSpace s parent child).frame (some child) v = none := by
  simp [Memory.frame, Memory.table, newSpace, Nat.not_le.2 lt]

theorem newSpace_kernel : (newSpace s parent child).Holds (.page none k) f ↔ s.Holds (.page none k) f := by
  simp only [Memory.Holds, Memory.table, newSpace, reduceCtorEq, if_false]
  rfl

theorem newSpace_len (lay : Paging.Layout s) (sp : Option Nat) :
    ((newSpace s parent child).vaddr sp).btmpBytesLen = (s.vaddr sp).btmpBytesLen := by
  cases sp with
  | none => rfl
  | some p =>
    simp only [Memory.vaddr, newSpace]
    split
    · rw [lay.user, lay.user]
    · rfl

theorem newSpace_page {i : Nat} (lay : Paging.Layout s) (ne : q ≠ child) :
    (newSpace s parent child).Holds (.page (some q) i) f ↔ s.Holds (.page (some q) i) f := by
  rw [holds_page_iff, holds_page_iff, newSpace_len lay, newSpace_other ne]

/-- Whatever has a frame had it before. -/
theorem newSpace_holds {x : Holder} (lay : Paging.Layout s) (held : (newSpace s parent child).Holds x f) : s.Holds x f := by
  cases x with
  | page sp i =>
    obtain ⟨lt, t, isTable, entry⟩ := held
    rw [newSpace_len lay] at lt
    refine ⟨lt, t, ?_, entry⟩
    simp only [Memory.table, newSpace] at isTable ⊢
    split at isTable
    · rename_i kernel
      rw [if_pos kernel]
      exact isTable
    · rename_i user
      rw [if_neg user]
      split at isTable
      · cases isTable
      · exact isTable
  | table p d =>
    obtain ⟨lt, isTable⟩ := held
    simp only [newSpace] at isTable
    split at isTable
    · cases isTable
    · exact ⟨lt, isTable⟩

theorem newSpace_frames (fr : Frames s) : Frames (newSpace s parent child) := by
  have lay := fr.layout
  refine ⟨⟨lay.kernelStart, lay.pools, lay.aligned, lay.heap, fun p => ?_⟩, ?_, ?_⟩
  · have len : ((newSpace s parent child).vaddr (some p)).btmpBytesLen = (s.vaddr (some p)).btmpBytesLen := newSpace_len lay (some p)
    exact len.trans (lay.user p)
  · intro x y f hx hy
    exact fr.unique x y f (newSpace_holds lay hx) (newSpace_holds lay hy)
  · intro x f held
    exact fr.marked x f (newSpace_holds lay held)

end NewSpace

/-- The pages `done` of the parent have been copied. -/
structure Copied (r0 : Ram) (parent child : Nat) (done : List Nat) (r : Ram) : Prop where
  frames : Frames r.mem
  vaddr : ∀ sp, r.mem.vaddr sp = r0.mem.vaddr sp
  kernel : ∀ k f, r0.mem.Holds (.page none k) f → r.mem.Holds (.page none k) f
  others : ∀ q v, q ≠ child → pdeIdx v < 768 → r.mem.frame (some q) v = r0.mem.frame (some q) v
  mapped : ∀ v, pdeIdx v < 768 → v % pgSize = 0 →
    ((r.mem.frame (some child) v).isSome ↔ ∃ i ∈ done, v = pageAddr (some child) i)
  bytes : ∀ i f o, r0.mem.Holds (.page (some parent) i) f → o < pgSize → r.phys (f + o) = r0.phys (f + o)
  copies : ∀ i ∈ done, ∃ f g, r0.mem.Holds (.page (some parent) i) f ∧ r.mem.Holds (.page (some child) i) g ∧
    ∀ o, o < pgSize → r.phys (g + o) = r0.phys (f + o)

section Body

variable {r0 r r' : Ram} {parent child p i j k b f v : Nat} {done l : List Nat}

/-- A page is found by its address alone. -/
theorem sharesEntry_page (aligned : v % pgSize = 0) : SharesEntry p p (pageAddr (some p) i) v ↔ v = pageAddr (some p) i := by
  constructor
  · rintro ⟨dir, entry, -⟩
    simp only [pdeIdx, pteIdx, pageAddr, vaddrStart, userVaddrStart, pgSize] at *
    omega
  · rintro rfl
    exact ⟨rfl, rfl, .inr rfl⟩

/-- The parent keeps its pages. -/
theorem Copied.parent_page (h : Copied r0 parent child done r) (ne : child ≠ parent) :
    r.mem.Holds (.page (some parent) i) f ↔ r0.mem.Holds (.page (some parent) i) f := by
  rw [holds_page_iff, holds_page_iff, h.vaddr]
  refine and_congr_right fun lt => ?_
  rw [← h.vaddr] at lt
  rw [h.others parent _ ne.symm ((h.frames.layout.pdeIdx_page lt).2 (by simp))]

/-- What one turn of `copy_body_stack3` does: the child gets a new frame, and the page of the parent
goes there through the buffer. -/
structure Turned (r r' : Ram) (parent child i b f g : Nat) : Prop where
  source : r.mem.frame (some parent) (pageAddr (some child) i) = some f
  grows : Paging.Extends r.mem r'.mem fun sp j f' => sp = some child ∧ j = i ∧ f' = g
  frame : ∀ q v, pdeIdx v < 1023 → r'.mem.frame (some q) v =
    if SharesEntry child q (pageAddr (some child) i) v then some g else r.mem.frame (some q) v
  phys : r'.phys = splice (splice r.phys b pgSize (shifted r.phys f)) g pgSize
    (shifted (splice r.phys b pgSize (shifted r.phys f)) b)

theorem copyPage_turned (fr : Frames r.mem) (buf : r.mem.Holds (.page none k) b) (lt : i < 8 * userBitmapLen)
    (turn : copyPage parent child (pageAddr none k) r i = .ok r') (fed : r'.mem.starved = false) :
    ∃ f g, Turned r r' parent child i b f g := by
  have addr : i * pgSize + userVaddrStart = pageAddr (some child) i := Nat.add_comm _ _
  have inside : i < 8 * (r.mem.vaddr (some child)).btmpBytesLen := by
    rw [Memory.vaddr, fr.layout.user]
    exact lt
  have user : pdeIdx (pageAddr (some child) i) < 768 := (fr.layout.pdeIdx_page inside).2 (by simp)
  simp only [copyPage, memcpyPages, bind_ok, frameOf_ok, pure_ok, addr] at turn
  obtain ⟨r1, ⟨f, source, b1, isBuf, rfl⟩, mem, take, b2, isBuf', g1, isNew, rfl⟩ := turn
  rw [frame_held fr.layout buf, Option.some.injEq] at isBuf
  subst isBuf
  simp only at take isBuf' isNew fed
  rw [getAPageWithoutOpvaddrbitmap] at take
  split at take
  · cases take
  rename_i g s1 taken
  have ext := mapOne fr inside (.inr rfl) taken take fed
  have newPage : mem.Holds (.page (some child) i) g := (ext.pages _ _ _).2 (.inr ⟨rfl, rfl, rfl⟩)
  rw [frame_held ext.frames.layout ((ext.pages _ _ _).2 (.inl buf)), Option.some.injEq] at isBuf'
  subst isBuf'
  rw [(holds_page_iff.1 newPage).2, Option.some.injEq] at isNew
  subst isNew
  refine ⟨f, g, source, ext, fun q v lt => ?_, rfl⟩
  rw [pageTableAdd_frame (fr.palloc taken) (by omega) take fed lt]
  obtain ⟨_, -, -, -, rfl⟩ := palloc_some taken
  rw [setPool_frame]

/-- The copy has the bytes of the page of the parent. -/
theorem Turned.copy {g o : Nat} (t : Turned r r' parent child i b f g) (lt : o < pgSize) : r'.phys (g + o) = r.phys (f + o) := by
  rw [t.phys, splice_at lt]
  simp only [shifted]
  rw [splice_at lt]
  rfl

/-- No other user page is written to. -/
theorem Turned.keeps {g q f' o : Nat} (t : Turned r r' parent child i b f g) (fr : Frames r.mem) (buf : r.mem.Holds (.page none k) b)
    (held : r.mem.Holds (.page (some q) j) f') (other : q = child → j ≠ i) (lt : o < pgSize) :
    r'.phys (f' + o) = r.phys (f' + o) := by
  have newPage : r'.mem.Holds (.page (some child) i) g := (t.grows.pages _ _ _).2 (.inr ⟨rfl, rfl, rfl⟩)
  have held' : r'.mem.Holds (.page (some q) j) f' := (t.grows.pages _ _ _).2 (.inl held)
  have apart : Holder.page (some child) i ≠ .page (some q) j := by
    intro same
    simp only [Holder.page.injEq, Option.some.injEq] at same
    exact other same.1.symm same.2.symm
  rw [t.phys, splice_apart t.grows.frames newPage held' apart lt, splice_apart fr buf held (by simp) lt]

/-- **One turn of `copy_body_stack3`.** -/
theorem Copied.turn (h : Copied r0 parent child done r) (ne : child ≠ parent) (buf : r0.mem.Holds (.page none k) b)
    (lt : i < 8 * userBitmapLen) (new : i ∉ done) (turn : copyPage parent child (pageAddr none k) r i = .ok r')
    (fed : r'.mem.starved = false) : Copied r0 parent child (done ++ [i]) r' := by
  have buf1 := h.kernel k b buf
  obtain ⟨f, g, t⟩ := copyPage_turned h.frames buf1 lt turn fed
  have old : ∀ sp j f', r.mem.Holds (.page sp j) f' → r'.mem.Holds (.page sp j) f' :=
    fun sp j f' held => (t.grows.pages _ _ _).2 (.inl held)
  refine ⟨t.grows.frames, fun sp => (t.grows.vaddr sp).trans (h.vaddr sp), fun k f held => old _ _ _ (h.kernel k f held),
    fun q v other lt => ?_, fun v lt aligned => ?_, fun j f' o held lt => ?_, fun j mem => ?_⟩
  · rw [t.frame q v (by omega), if_neg, h.others q v other lt]
    rintro ⟨dir, -, kernel | same⟩
    · omega
    · exact other same
  · simp only [List.mem_append, List.mem_singleton, or_and_right, exists_or, exists_eq_left]
    rw [t.frame child v (by omega), ← h.mapped v lt aligned]
    split
    · rename_i shares
      simp [(sharesEntry_page aligned).1 shares]
    · rename_i other
      rw [sharesEntry_page aligned] at other
      simp [other]
  · rw [t.keeps h.frames buf1 ((h.parent_page ne).2 held) (fun same => absurd same.symm ne) lt, h.bytes j f' o held lt]
  · rw [List.mem_append, List.mem_singleton] at mem
    obtain before | rfl := mem
    · obtain ⟨f', g', held, copy, same⟩ := h.copies j before
      refine ⟨f', g', held, old _ _ _ copy, fun o lt => ?_⟩
      rw [t.keeps h.frames buf1 copy (fun _ e => new (e ▸ before)) lt, same o lt]
    · have inParent : j < 8 * (r.mem.vaddr (some parent)).btmpBytesLen := by
        rw [Memory.vaddr, h.frames.layout.user]
        exact lt
      have page : r0.mem.Holds (.page (some parent) j) f := (h.parent_page ne).1 (holds_page_iff.2 ⟨inParent, t.source⟩)
      refine ⟨f, g, page, (t.grows.pages _ _ _).2 (.inr ⟨rfl, rfl, rfl⟩), fun o lt => ?_⟩
      rw [t.copy lt, h.bytes j f o page lt]

theorem copyPage_starved {bufPage : Nat} (turn : copyPage parent child bufPage r i = .ok r') (fed : r'.mem.starved = false) :
    r.mem.starved = false := by
  simp only [copyPage, bind_ok] at turn
  obtain ⟨r1, load, mem, take, store⟩ := turn
  rw [memcpyPages_mem store] at fed
  rw [← memcpyPages_mem load]
  rw [getAPageWithoutOpvaddrbitmap] at take
  split at take
  · cases take
  · rename_i g s1 taken
    exact palloc_starved taken (pageTableAdd_starved take fed)

theorem body_starved {bufPage : Nat} (ran : l.foldlM (copyPage parent child bufPage) r = .ok r') (fed : r'.mem.starved = false) :
    r.mem.starved = false := by
  by_contra starved
  have kept := foldlM_invariant (I := fun r : Ram => ¬ r.mem.starved = false)
    (fun _ _ _ turn was fed => was (copyPage_starved turn fed)) l ran starved
  exact kept fed

/-- **The loop of `copy_body_stack3`.** -/
theorem Copied.body (ne : child ≠ parent) (buf : r0.mem.Holds (.page none k) b) : ∀ {l done : List Nat} {r : Ram},
    Copied r0 parent child done r → (∀ i ∈ l, i < 8 * userBitmapLen) → (done ++ l).Nodup →
    l.foldlM (copyPage parent child (pageAddr none k)) r = .ok r' → r'.mem.starved = false →
    Copied r0 parent child (done ++ l) r' := by
  intro l
  induction l with
  | nil =>
    intro done r h _ _ ran fed
    cases ran
    rw [List.append_nil]
    exact h
  | cons i l ih =>
    intro done r h inside nodup ran fed
    rw [List.foldlM_cons, bind_ok] at ran
    obtain ⟨r1, first, rest⟩ := ran
    rw [List.append_cons] at nodup ⊢
    have new : i ∉ done := by
      intro before
      have apart := (List.nodup_append.1 (List.nodup_append.1 nodup).1).2.2
      exact apart i before i (List.mem_singleton_self i) rfl
    have next := h.turn ne buf (inside i List.mem_cons_self) new first (body_starved rest fed)
    exact ih next (fun j mem => inside j (List.mem_cons_of_mem i mem)) nodup rest fed

/-- The bits of an address space. -/
theorem mem_setPages {bits : Bitmap} : i ∈ setPages bits ↔ i < 8 * bits.btmpBytesLen ∧ bits.Set i := by
  rw [setPages, List.mem_filter, List.mem_range]
  rfl

/-- **`copy_body_stack3`** into a new address space. -/
theorem copyBodyStack3_copied {s : Memory} {phys : Image} (fr : Frames s) (ne : child ≠ parent) (buf : s.Holds (.page none k) b)
    (ran : copyBodyStack3 ⟨newSpace s parent child, phys⟩ parent child (pageAddr none k) = .ok r') (fed : r'.mem.starved = false) :
    Copied ⟨newSpace s parent child, phys⟩ parent child (setPages (s.userVaddr parent)) r' := by
  have bits : (newSpace s parent child).userVaddr parent = s.userVaddr parent := if_neg ne.symm
  rw [copyBodyStack3, bits, forSetBits_eq] at ran
  have start : Copied ⟨newSpace s parent child, phys⟩ parent child [] ⟨newSpace s parent child, phys⟩ := by
    refine ⟨newSpace_frames fr, fun _ => rfl, fun _ _ held => held, fun _ _ _ _ => rfl, fun v lt _ => ?_, fun _ _ _ _ _ => rfl, ?_⟩
    · simp [newSpace_child lt]
    · simp
  have inside : ∀ i ∈ setPages (s.userVaddr parent), i < 8 * userBitmapLen := by
    intro i mem
    rw [← fr.layout.user parent]
    exact (mem_setPages.1 mem).1
  have nodup : ([] ++ setPages (s.userVaddr parent)).Nodup := by
    rw [List.nil_append, setPages]
    exact List.nodup_range.filter _
  have buf' : (newSpace s parent child).Holds (.page none k) b := newSpace_kernel.2 buf
  have whole := start.body ne buf' inside nodup ran fed
  rw [List.nil_append] at whole
  exact whole

end Body

/-! The whole fork. -/

section Refines

variable {r r' : Ram} {parent : Reap.TaskStruct} {own : TaskPages} {m m' : Machine} {p child bufPage i n : Nat} {cur got : Option Nat}

theorem copyPage_mem (turn : copyPage p child bufPage r i = .ok r') : LifeCycle.copyPage child r.mem i = .ok r'.mem := by
  simp only [copyPage, bind_ok] at turn
  obtain ⟨r1, load, mem, take, store⟩ := turn
  rw [memcpyPages_mem store, LifeCycle.copyPage, ← memcpyPages_mem load]
  exact take

theorem copyBodyStack3_mem (ran : copyBodyStack3 r p child bufPage = .ok r') :
    LifeCycle.copyBodyStack3 r.mem p child = .ok r'.mem := by
  rw [copyBodyStack3, forSetBits_eq] at ran
  rw [copyBodyStack3_eq]
  generalize setPages (r.mem.userVaddr p) = l at *
  induction l generalizing r with
  | nil =>
    cases ran
    rfl
  | cons i l ih =>
    rw [List.foldlM_cons, bind_ok] at ran ⊢
    obtain ⟨r1, first, rest⟩ := ran
    exact ⟨r1.mem, copyPage_mem first, ih rest⟩

theorem copyProcess_world {childThread : Nat} (call : copyProcess parent own childThread m = .ok (got, m')) :
    LifeCycle.copyProcess parent m.world = .ok (got, m'.world) := by
  simp only [copyProcess, bind_ok, Prod.exists] at call
  obtain ⟨bufPage, r1, second, call⟩ := call
  have second := getKernelPages_mem second
  cases bufPage with
  | none =>
    cases call
    simp only [LifeCycle.copyProcess, Machine.world, second, ok_bind]
    rfl
  | some bufPage =>
  simp only [bind_ok, Prod.exists] at call
  obtain ⟨pid, m1, pcb, call⟩ := call
  simp only [copyPcbVaddrbitmapStack0, bind_ok, Prod.exists] at pcb
  obtain ⟨r2, thread, child, tasks, number, vaddrBtmp, r3, third, pcb⟩ := pcb
  have third := getKernelPages_mem third
  rw [memcpyPages_mem thread] at third
  cases vaddrBtmp with
  | none =>
    cases pcb
    cases call
    simp only [LifeCycle.copyProcess, Machine.world, second, number, third, ok_bind]
    rfl
  | some vaddrBtmp =>
  simp only [bind_ok, pure_ok] at pcb
  obtain ⟨r4, bits, e⟩ := pcb
  cases e
  simp only [bind_ok, Prod.exists] at call
  obtain ⟨pgdir, r5, fourth, call⟩ := call
  have fourth := getKernelPages_mem fourth
  rw [memcpyPages_mem bits] at fourth
  cases pgdir with
  | none =>
    cases call
    simp only [LifeCycle.copyProcess, Machine.world, second, number, third, fourth, ok_bind]
    rfl
  | some pgdir =>
    simp only [bind_ok, pure_ok] at call
    obtain ⟨r6, body, s, counts, mem, freed, e⟩ := call
    cases e
    have body := copyBodyStack3_mem body
    simp only [LifeCycle.copyProcess, Machine.world, second, number, third, fourth, body, counts, freed, ok_bind]
    rfl

/-- A fork with contents is a fork of the pages, tasks and descriptors. -/
theorem sysFork_world (call : sysFork parent own m = .ok (got, m')) : LifeCycle.sysFork parent m.world = .ok (got, m'.world) := by
  simp only [sysFork, bind_ok, Prod.exists] at call
  obtain ⟨thread, r1, first, call⟩ := call
  have first := getKernelPages_mem first
  cases thread with
  | none =>
    cases call
    simp only [LifeCycle.sysFork, Machine.world, first, ok_bind]
    rfl
  | some childThread =>
  simp only [bind_ok, assertThat_ok, exists_const, Prod.exists] at call
  obtain ⟨user, pid, m1, copied, call⟩ := call
  have process := copyProcess_world copied
  simp only [LifeCycle.sysFork, Machine.world, first, ok_bind, assertThat_of user] at process ⊢
  rw [process]
  cases pid with
  | none =>
    cases call
    rfl
  | some child =>
    cases call
    rfl

end Refines

section Fork

variable {parent : Reap.TaskStruct} {own : TaskPages} {m m' : Machine} {child childThread : Nat}

/-- **`copy_pcb_vaddrbitmap_stack0`**, when it succeeds. -/
theorem copyPcb_quiet {k : Nat} (fr : Frames m.ram.mem) (thread : ∀ j, k ≤ j ∧ j < k + 1 → ∃ f, m.ram.mem.Holds (.page none j) f)
    (call : copyPcbVaddrbitmapStack0 parent own (pageAddr none k) m = .ok (some child, m')) (fed : m'.ram.mem.starved = false) :
    Quiet m.ram m'.ram ∧ (∀ j f, m.ram.mem.Holds (.page none j) f → m'.ram.mem.Holds (.page none j) f) ∧
      ∃ tasks, Reap.allocatePid m.tasks = .ok (child, tasks) := by
  simp only [copyPcbVaddrbitmapStack0, bind_ok, Prod.exists] at call
  obtain ⟨r1, copied, pid, tasks, number, got, r2, taken, call⟩ := call
  cases got with
  | none => cases call
  | some vaddrBtmp =>
    simp only [bind_ok, pure_ok, Prod.mk.injEq, Option.some.injEq] at call
    obtain ⟨r3, bits, rfl, rfl⟩ := call
    have quiet1 := memcpyPages_quiet fr thread copied
    have fed2 : r2.mem.starved = false := by
      rw [← memcpyPages_mem bits]
      exact fed
    obtain ⟨quiet2, kept, i, rfl, held⟩ := getKernelPages_quiet quiet1.kernel.frames taken fed2
    have quiet3 := memcpyPages_quiet quiet2.kernel.frames held bits
    refine ⟨(quiet1.trans quiet2).trans quiet3, fun j f page => ?_, tasks, number⟩
    rw [memcpyPages_mem copied] at kept
    simp only [memcpyPages_mem bits]
    exact kept j f page

theorem copyPcb_starved (call : copyPcbVaddrbitmapStack0 parent own childThread m = .ok (some child, m'))
    (fed : m'.ram.mem.starved = false) : m.ram.mem.starved = false := by
  simp only [copyPcbVaddrbitmapStack0, bind_ok, Prod.exists] at call
  obtain ⟨r1, copied, pid, tasks, -, got, r2, taken, call⟩ := call
  cases got with
  | none => cases call
  | some vaddrBtmp =>
    simp only [bind_ok, pure_ok, Prod.mk.injEq] at call
    obtain ⟨r3, bits, -, rfl⟩ := call
    simp only [memcpyPages_mem bits] at fed
    rw [← memcpyPages_mem copied]
    exact getKernelPages_starved taken fed

theorem copyPcb_keeps {got : Option Nat} (call : copyPcbVaddrbitmapStack0 parent own childThread m = .ok (got, m')) (q : Nat) :
    m'.ram.mem.userVaddr q = m.ram.mem.userVaddr q ∧ m'.sys = m.sys := by
  simp only [copyPcbVaddrbitmapStack0, bind_ok, Prod.exists] at call
  obtain ⟨r1, copied, pid, tasks, -, vaddrBtmp, r2, taken, call⟩ := call
  have users := getKernelPages_users taken q
  rw [memcpyPages_mem copied] at users
  cases vaddrBtmp with
  | none =>
    cases call
    exact ⟨users, rfl⟩
  | some vaddrBtmp =>
    simp only [bind_ok, pure_ok, Prod.mk.injEq] at call
    obtain ⟨r3, bits, -, rfl⟩ := call
    refine ⟨?_, rfl⟩
    rw [← users]
    simp only [memcpyPages_mem bits]

/-- A fork that returns has taken kernel pages, copied the body through one of them, and given that one back. -/
theorem sysFork_parts (fr : Frames m.ram.mem) (call : sysFork parent own m = .ok (some child, m')) (fed : m'.ram.mem.starved = false) :
    (∃ tasks, Reap.allocatePid m.tasks = .ok (child, tasks)) ∧
      ∃ r k b r', Quiet m.ram r ∧ r.mem.Holds (.page none k) b ∧ r'.mem.starved = false ∧ r'.phys = m'.ram.phys ∧
        copyBodyStack3 ⟨newSpace r.mem parent.pid child, r.phys⟩ parent.pid child (pageAddr none k) = .ok r' ∧
        Paging.mfreePage r'.mem (some parent.pid) .kernel (pageAddr none k) 1 = .ok m'.ram.mem := by
  simp only [sysFork, bind_ok, Prod.exists] at call
  obtain ⟨got, r1, first, call⟩ := call
  cases got with
  | none => cases call
  | some childThread =>
  simp only [bind_ok, assertThat_ok, exists_const, Prod.exists] at call
  obtain ⟨-, got, m1, copied, call⟩ := call
  cases got with
  | none => cases call
  | some pid =>
  cases call
  simp only [copyProcess, bind_ok, Prod.exists] at copied
  obtain ⟨got, r2, second, copied⟩ := copied
  cases got with
  | none => cases copied
  | some bufPage =>
  simp only [bind_ok, Prod.exists] at copied
  obtain ⟨got, m3, pcb, copied⟩ := copied
  cases got with
  | none => cases copied
  | some pid =>
  simp only [bind_ok, Prod.exists] at copied
  obtain ⟨got, r4, fourth, copied⟩ := copied
  cases got with
  | none => cases copied
  | some pgdir =>
  simp only [bind_ok, pure_ok] at copied
  obtain ⟨r5, body, _, -, mem, freed, e⟩ := copied
  cases e
  -- no allocation has failed at any point
  have fed5 : r5.mem.starved = false := (mfreePage_starved freed).symm.trans fed
  have fed4 : r4.mem.starved = false := by
    have ran := body
    rw [copyBodyStack3, forSetBits_eq] at ran
    have start := body_starved ran fed5
    exact start
  have fed3 := getKernelPages_starved fourth fed4
  have fed2 := copyPcb_starved pcb fed3
  have fed1 := getKernelPages_starved second fed2
  obtain ⟨quiet1, -, j, rfl, thread⟩ := getKernelPages_quiet fr first fed1
  obtain ⟨quiet2, kept2, k, rfl, buf⟩ := getKernelPages_quiet quiet1.kernel.frames second fed2
  have thread2 : ∀ i, j ≤ i ∧ i < j + 1 → ∃ f, r2.mem.Holds (.page none i) f := by
    intro i run
    obtain ⟨f, held⟩ := thread i run
    exact ⟨f, kept2 i f held⟩
  obtain ⟨quiet3, kept3, number⟩ := copyPcb_quiet quiet2.kernel.frames thread2 pcb fed3
  obtain ⟨quiet4, kept4, -⟩ := getKernelPages_quiet quiet3.kernel.frames fourth fed4
  obtain ⟨b, held⟩ := buf k (by omega)
  exact ⟨number, r4, k, b, r5, quiet1.trans (quiet2.trans (quiet3.trans quiet4)), kept4 k b (kept3 k b held), fed5, rfl, body, freed⟩

theorem fed_frames (fr : Frames m.ram.mem) : Frames m.fed.ram.mem :=
  ⟨⟨fr.layout.kernelStart, fr.layout.pools, fr.layout.aligned, fr.layout.heap, fr.layout.user⟩, fr.unique, fr.marked⟩

theorem pdeIdx_user {v : Nat} : v < 0xc0000000 ↔ pdeIdx v < 768 := by
  unfold pdeIdx
  omega

/-- The pages of a process with only the pages of its bitmap are held. -/
theorem MapsBits.page {s : Memory} {p v f : Nat} (maps : MapsBits s p) (user : v < 0xc0000000) (aligned : v % pgSize = 0)
    (isFrame : s.frame (some p) v = some f) : ∃ i, v = pageAddr (some p) i ∧ s.Holds (.page (some p) i) f := by
  have mapped : (s.frame (some p) v).isSome := by
    rw [isFrame]
    rfl
  obtain ⟨i, lt, -, rfl⟩ := (maps v user aligned).1 mapped
  exact ⟨i, rfl, holds_page_iff.2 ⟨lt, isFrame⟩⟩

/-- **`sys_fork` copies the address space.** A fork by a process whose user pages are those of its
bitmap, in which no allocation fails, gives the child the same bitmap and the same pages with the
same contents in frames of its own, and leaves the parent as it was. -/
theorem sysFork_copies (fr : Frames m.ram.mem) (numbered : m.tasks.pidBitmap.Set (parent.pid - 1))
    (maps : MapsBits m.ram.mem parent.pid) (call : sysFork parent own m.fed = .ok (some child, m'))
    (fed : m'.ram.mem.starved = false) : Copies parent.pid child m m' := by
  obtain ⟨⟨tasks, number⟩, r, k, b, r', quiet, buf, fed', phys, body, freed⟩ := sysFork_parts (fed_frames fr) call fed
  have ne : child ≠ parent.pid := by
    rintro rfl
    exact (Reap.allocatePid_ok number).2.1 numbered
  have copied := copyBodyStack3_copied quiet.kernel.frames ne buf body fed'
  have last := mfreePage_kernel copied.frames (copied.kernel k b (newSpace_kernel.2 buf)) freed
  have bits : ∀ p, m'.ram.mem.userVaddr p = (newSpace r.mem parent.pid child).userVaddr p :=
    fun p => (last.users p).trans (copied.vaddr (some p))
  have parentBits : r.mem.userVaddr parent.pid = m.ram.mem.userVaddr parent.pid := quiet.kernel.users parent.pid
  have parentBitmap : m'.ram.mem.userVaddr parent.pid = m.ram.mem.userVaddr parent.pid :=
    (bits parent.pid).trans ((if_neg ne.symm).trans parentBits)
  have childBitmap : m'.ram.mem.userVaddr child = m.ram.mem.userVaddr parent.pid :=
    (bits child).trans ((if_pos rfl).trans parentBits)
  -- the parent has its pages, and they contain what they did
  have parentFrame : ∀ v, v < 0xc0000000 → m'.ram.mem.frame (some parent.pid) v = m.ram.mem.frame (some parent.pid) v := by
    intro v user
    have lt := pdeIdx_user.1 user
    rw [last.frame _ v lt, copied.others _ v ne.symm lt]
    exact (newSpace_other ne.symm).trans (quiet.kernel.frame _ v lt)
  have parentPage : ∀ i f, m.ram.mem.Holds (.page (some parent.pid) i) f →
      (newSpace r.mem parent.pid child).Holds (.page (some parent.pid) i) f := by
    intro i f held
    rw [newSpace_page quiet.kernel.frames.layout ne.symm]
    exact quiet.kernel.holds.2 held
  have parentBytes : ∀ i f o, m.ram.mem.Holds (.page (some parent.pid) i) f → o < pgSize → m'.ram.phys (f + o) = m.ram.phys (f + o) := by
    intro i f o held lt
    rw [← phys, copied.bytes i f o (parentPage i f held) lt]
    exact quiet.bytes _ i f o held lt
  -- the child has their copies
  have childMapped : ∀ v, v < 0xc0000000 → v % pgSize = 0 → ((m'.ram.mem.frame (some child) v).isSome ↔
      ∃ i ∈ setPages (m.ram.mem.userVaddr parent.pid), v = pageAddr (some child) i) := by
    intro v user aligned
    rw [last.frame _ v (pdeIdx_user.1 user), copied.mapped v (pdeIdx_user.1 user) aligned, parentBits]
  have childPage : ∀ v g, v < 0xc0000000 → v % pgSize = 0 → m'.ram.mem.frame (some child) v = some g →
      ∃ i f, m.ram.mem.frame (some parent.pid) v = some f ∧ m'.ram.mem.Holds (.page (some child) i) g ∧
        ∀ o, o < pgSize → m'.ram.phys (g + o) = m.ram.phys (f + o) := by
    intro v g user aligned isFrame
    obtain ⟨i, mem, rfl⟩ := (childMapped v user aligned).1 (by rw [isFrame]; rfl)
    rw [← parentBits] at mem
    obtain ⟨f, g', source, copy, same⟩ := copied.copies i mem
    have copy' := last.holds.2 copy
    have isG := (holds_page_iff.1 copy').2
    rw [isFrame, Option.some.injEq] at isG
    subst isG
    rw [newSpace_page quiet.kernel.frames.layout ne.symm] at source
    have source' : m.ram.mem.Holds (.page (some parent.pid) i) f := quiet.kernel.holds.1 source
    refine ⟨i, f, (holds_page_iff.1 source').2, copy', fun o lt => ?_⟩
    rw [← phys, same o lt]
    exact quiet.bytes _ i f o source' lt
  refine ⟨last.frames, childBitmap.trans parentBitmap.symm, fun v user aligned => ?_, ?_, ?_, parentBitmap, parentFrame, ?_⟩
  · rw [childMapped v user aligned, parentFrame v user, maps v user aligned]
    simp only [mem_setPages, and_assoc]
    rfl
  · intro v f g user aligned isParent isChild o lt
    rw [parentFrame v user] at isParent
    obtain ⟨i, f', isF, -, same⟩ := childPage v g user aligned isChild
    obtain ⟨j, -, held⟩ := maps.page user aligned isParent
    rw [isParent, Option.some.injEq] at isF
    subst isF
    rw [same o lt, parentBytes j f o held lt]
  · rintro v v' f g user aligned user' aligned' isParent isChild rfl
    rw [parentFrame v user] at isParent
    obtain ⟨i, -, -, copy, -⟩ := childPage v' f user' aligned' isChild
    obtain ⟨j, -, held⟩ := maps.page user aligned isParent
    have held' : m'.ram.mem.Holds (.page (some parent.pid) j) f :=
      last.holds.2 ((copied.parent_page ne).2 (parentPage j f held))
    have same := last.frames.unique _ _ _ held' copy
    simp only [Holder.page.injEq, Option.some.injEq] at same
    exact ne same.1.symm
  · intro v f user aligned isFrame o lt
    obtain ⟨j, -, held⟩ := maps.page user aligned isFrame
    exact parentBytes j f o held lt

/-- `get_a_page` marks the page it maps. -/
theorem getAPage_mapsBits {s s' : Memory} {p i : Nat} {got : Option Nat} (fr : Frames s) (maps : MapsBits s p)
    (lt : i < 8 * userBitmapLen) (call : getAPage s (some p) .user (pageAddr (some p) i) = .ok (got, s'))
    (fed : s'.starved = false) : MapsBits s' p := by
  have inside : i < 8 * (s.vaddr (some p)).btmpBytesLen := by
    rw [Memory.vaddr, fr.layout.user]
    exact lt
  have idx : bitIdx (some p) (pageAddr (some p) i) = i := fr.layout.bitIdx_page inside
  have bits : s'.userVaddr p = bitmapSet (s.userVaddr p) i true := by
    have marked := getAPage_vaddr call (some p)
    simp only [space, if_true, idx] at marked
    exact marked
  have user : pdeIdx (pageAddr (some p) i) < 768 := (fr.layout.pdeIdx_page inside).2 (by simp)
  obtain ⟨-, s1, rfl, ⟨taken, -⟩ | ⟨f, s2, taken, add, -⟩⟩ := getAPage_cases call
  · rw [palloc_none taken] at fed
    cases fed
  · have fr2 := (fr.setVaddr (bitmapSet_len _ _ _)).palloc taken
    intro v below aligned
    rw [pageTableAdd_frame fr2 (by omega) add fed (by rw [pdeIdx_user] at below; omega), bits]
    obtain ⟨_, -, -, -, rfl⟩ := palloc_some taken
    rw [setPool_frame, setVaddr_frame]
    simp only [sharesEntry_page aligned, set_bitmapSet, bitmapSet_len]
    split
    · rename_i here
      simp only [Option.isSome_some, true_iff]
      exact ⟨i, inside, by simp, here⟩
    · rename_i other
      rw [maps v below aligned]
      refine exists_congr fun j => and_congr_right fun _ => and_congr_left fun isAddr => ?_
      rw [if_neg]
      rintro rfl
      exact other isAddr

theorem memPoolInit_mapsBits (allMem p : Nat) : MapsBits (memPoolInit allMem) p := by
  intro v below aligned
  have user := pdeIdx_user.1 below
  have unmapped : (memPoolInit allMem).frame (some p) v = none := by
    simp [Memory.frame, Memory.table, memPoolInit, Nat.not_le.2 user]
  rw [unmapped]
  simp [memPoolInit, Bitmap.Set, bitmapScanTest]

theorem setPages_one {b : Bitmap} {i : Nat} (lt : i < 8 * b.btmpBytesLen) (only : ∀ j, b.Set j ↔ j = i) : setPages b = [i] := by
  have test : ∀ j, bitmapScanTest b j = (j == i) := by
    intro j
    rw [Bool.eq_iff_iff, beq_iff_eq]
    exact only j
  rw [setPages, List.filter_congr fun j _ => test j, List.filter_beq,
    List.count_eq_one_of_mem List.nodup_range (List.mem_range.2 lt)]
  rfl

/-- Kernel pages that the loader mapped. -/
def lowPages : TaskPages := ⟨0xc009e000, 0xc0040000, 0xc0000000⟩

/-- `init` forks with its stack mapped. -/
theorem sysFork_copies_stack : ∃ m m' : Machine, (m.ram.mem.frame (some 1) 0xbffff000).isSome ∧
    sysFork initTask lowPages m.fed = .ok (some 4, m') ∧ Copies 1 4 m m' := by
  have counts : returns (updateInodeOpenCnts (noFiles.heapOf 1) (noFiles.procs 1).fdTable noFiles.fs) (fun _ => true) = true := by
    decide
  have pages : returns (getAPage (memPoolInit 0x2000000) (some 1) .user 0xbffff000) (fun r0 => !r0.2.starved &&
      returns (getKernelPages ⟨r0.2, fun _ => 0#8⟩ (some 1) 1) fun r1 => r1.1.isSome &&
      returns (getKernelPages r1.2 (some 1) 1) fun r2 => r2.1.isSome &&
      returns (copyPcbVaddrbitmapStack0 initTask lowPages (r1.1.getD 0) ⟨r2.2, initTasks, noFiles⟩) fun m3 => m3.1 == some 4 &&
      returns (getKernelPages m3.2.ram (some 1) 1) fun r4 => r4.1.isSome &&
      returns (copyPage 1 4 (r2.1.getD 0) { r4.2 with mem := newSpace r4.2.mem 1 4 } 753591) fun r5 =>
      returns (Paging.mfreePage r5.mem (some 1) .kernel (r2.1.getD 0) 1) fun mem => !mem.starved) = true := by
    decide
  obtain ⟨s, counts, -⟩ := returns_true.1 counts
  obtain ⟨⟨got, s0⟩, stack, pages⟩ := returns_true.1 pages
  simp only [Bool.and_eq_true, Bool.not_eq_true'] at pages
  obtain ⟨fed0, pages⟩ := pages
  obtain ⟨⟨thread, r1⟩, first, pages⟩ := returns_true.1 pages
  simp only [Bool.and_eq_true, Option.isSome_iff_exists] at pages
  obtain ⟨⟨childThread, rfl⟩, pages⟩ := pages
  obtain ⟨⟨buf, r2⟩, second, pages⟩ := returns_true.1 pages
  simp only [Bool.and_eq_true, Option.isSome_iff_exists] at pages
  obtain ⟨⟨bufPage, rfl⟩, pages⟩ := pages
  obtain ⟨⟨pid, m3⟩, pcb, pages⟩ := returns_true.1 pages
  simp only [Bool.and_eq_true, beq_iff_eq] at pages
  obtain ⟨rfl, pages⟩ := pages
  obtain ⟨⟨dir, r4⟩, fourth, pages⟩ := returns_true.1 pages
  simp only [Bool.and_eq_true, Option.isSome_iff_exists] at pages
  obtain ⟨⟨pgdir, rfl⟩, pages⟩ := pages
  obtain ⟨r5, turn, pages⟩ := returns_true.1 pages
  obtain ⟨mem, freed, fed⟩ := returns_true.1 pages
  rw [Bool.not_eq_true'] at fed
  have inv := memPoolInit_inv 0x2000000
  have inside : 753591 < 8 * userBitmapLen := by decide
  have maps : MapsBits s0 1 := getAPage_mapsBits (i := 753591) inv.frames (memPoolInit_mapsBits _ _) inside stack fed0
  have fr : Frames s0 := by
    have inPool : 753591 < 8 * ((memPoolInit 0x2000000).vaddr (space .user (some 1))).btmpBytesLen := inside
    obtain ⟨g, -, taken⟩ := getAPage_taken inv inPool (fun f held => memPoolInit_holds _ _ _ held) stack fed0
    exact taken.inv.frames
  have bits : (newSpace r4.mem 1 4).userVaddr 1 = stackBits := by
    have marked : s0.userVaddr 1 = stackBits := getAPage_vaddr stack (some 1)
    have users := (getKernelPages_users first 1).trans marked
    have users := (getKernelPages_users second 1).trans users
    have users := (copyPcb_keeps pcb 1).1.trans users
    exact (getKernelPages_users fourth 1).trans users
  have body : copyBodyStack3 ⟨newSpace r4.mem 1 4, r4.phys⟩ 1 4 bufPage = .ok r5 := by
    have one : setPages stackBits = [753591] := setPages_one (by decide) fun j => by
      rw [stackBits, set_bitmapSet]
      simp [Bitmap.Set, bitmapScanTest]
    rw [copyBodyStack3, forSetBits_eq, bits, one, List.foldlM_cons]
    exact bind_ok.2 ⟨r5, turn, rfl⟩
  have sys : m3.sys = noFiles := (copyPcb_keeps pcb 1).2
  have same : { s0 with starved := false } = s0 := by
    rw [← fed0]
  have call : ∃ m', sysFork initTask lowPages (Machine.fed ⟨⟨s0, fun _ => 0#8⟩, initTasks, noFiles⟩) = .ok (some 4, m') ∧
      m'.ram.mem = mem := by
    have process : ∃ m1, copyProcess initTask lowPages childThread ⟨r1, initTasks, noFiles⟩ = .ok (some 4, m1) ∧ m1.ram.mem = mem := by
      simp only [Option.getD_some] at pcb freed
      have counts' : updateInodeOpenCnts (m3.sys.heapOf initTask.pid) (m3.sys.procs initTask.pid).fdTable m3.sys.fs = .ok s := by
        rw [sys]
        exact counts
      simp only [copyProcess, show initTask.pid = 1 from rfl, second, pcb, fourth, body, ok_bind, freed] at counts' ⊢
      rw [counts']
      exact ⟨_, rfl, rfl⟩
    obtain ⟨m1, process, isMem⟩ := process
    have user : initTask.user = true := rfl
    simp only [Machine.fed, same, sysFork, show initTask.pid = 1 from rfl, first, ok_bind, assertThat_of user, process]
    exact ⟨_, rfl, isMem⟩
  obtain ⟨m', call, isMem⟩ := call
  have numbered : initTasks.pidBitmap.Set (initTask.pid - 1) := by decide
  have stackPage : (s0.frame (some 1) 0xbffff000).isSome := by
    have marked : s0.userVaddr 1 = stackBits := getAPage_vaddr stack (some 1)
    rw [maps _ (by decide) (by decide), marked]
    exact ⟨753591, by decide, by decide, by decide⟩
  exact ⟨_, m', stackPage, call, sysFork_copies fr numbered maps call (by rw [isMem]; exact fed)⟩

end Fork

end Sparrow.ForkCopy
