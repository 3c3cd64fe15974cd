import Sparrow.Kernel.HeapInv
import Mathlib.Logic.Relation

/-!
# Runs of `sys_malloc` and `sys_free`

`HeapInv o h A` puts the heap `A`, the memory that shows it and the pages it was taken from
together. `sysMalloc_gave` and `sysFree_took` say what each call does to it, and
`heap_sound` what this means for the client in every state of a run.
-/

namespace Sparrow
set_option autoImplicit false

/-- Bit `j` is the bit of one of the pages of the run. -/
def PageRun.HasBit (r : PageRun) (start j : Nat) : Prop :=
  (r.addr - start) / pgSize ≤ j ∧ j < (r.addr - start) / pgSize + r.pages

structure HeapInv (o : HeapOwner) (h : Heap) (A : Arenas) : Prop where
  ok : A.Ok o.vaddrStart h.vaddr.btmpBytesLen
  memory : Shows o h.mem A
  owned : ∀ a n, (a, n) ∈ h.owned ↔ ∃ cls, ⟨a, n, cls⟩ ∈ A.runs
  nodup : h.owned.Nodup
  bits : ∀ r ∈ A.runs, ∀ j, r.HasBit o.vaddrStart j → h.vaddr.Set j

/-- What a call did to the heap: it is in order again, nothing changed beside it, and bits
change for its own runs only. -/
structure Moves (o : HeapOwner) (h : Heap) (A : Arenas) (h' : Heap) (A' : Arenas) : Prop where
  inv : HeapInv o h' A'
  len : h'.vaddr.btmpBytesLen = h.vaddr.btmpBytesLen
  mem : ∀ x, ¬ o.Owns A.runs x → ¬ o.Owns A'.runs x → h'.mem x = h.mem x
  bits : ∀ j, h.vaddr.Set j → h'.vaddr.Set j ∨ ∃ r ∈ A.runs, r.HasBit o.vaddrStart j
  runs : ∀ r ∈ A'.runs, r ∈ A.runs ∨ ∀ j, r.HasBit o.vaddrStart j → ¬ h.vaddr.Set j

section Pages

variable {o : HeapOwner} {h h' : Heap} {A A' : Arenas} {a n p size : Nat} {cls : Option Nat}

/-- What `malloc_page` leaves behind when it returns a run. -/
structure PagesTaken (o : HeapOwner) (h h' : Heap) (a n : Nat) : Prop where
  mem : h'.mem = h.mem
  owned : h'.owned = (a, n) :: h.owned
  len : h'.vaddr.btmpBytesLen = h.vaddr.btmpBytesLen
  pages : 0 < n
  start : ∃ idx, a = o.vaddrStart + idx * pgSize ∧ h'.vaddr = bitmapSetRun h.vaddr idx true n ∧
    ∀ k, k < n → idx + k < 8 * h.vaddr.btmpBytesLen ∧ ¬ h.vaddr.Set (idx + k)

/-- What it leaves behind when it returns null. -/
structure PagesLost (h h' : Heap) : Prop where
  mem : h'.mem = h.mem
  owned : h'.owned = h.owned
  len : h'.vaddr.btmpBytesLen = h.vaddr.btmpBytesLen
  bits : ∀ j, h.vaddr.Set j → h'.vaddr.Set j

/-- Either a run was found and paid for, or nothing but bits and frames changed. -/
theorem mallocPage_cases {found : Option Nat} (got : mallocPage o h n = .ok (found, h')) :
    (∃ a, found = some a ∧ PagesTaken o h h' a n) ∨ (found = none ∧ PagesLost h h') := by
  simp only [mallocPage, bind_ok, assertThat_ok, exists_const] at got
  obtain ⟨bound, got⟩ := got
  have more : ∀ idx j, h.vaddr.Set j → (bitmapSetRun h.vaddr idx true n).Set j := by
    intro idx j set
    rw [set_bitmapSetRun]
    split
    · rfl
    · exact set
  split at got
  · cases got
    exact .inr ⟨rfl, rfl, rfl, rfl, fun _ set => set⟩
  · rename_i idx scanned
    -- the assertion of `vaddr_get` for a process says nothing more about the heap
    have rest : (if h.frames < n then (.ok (none, { h with vaddr := bitmapSetRun h.vaddr idx true n, frames := 0 }) : Exec _)
        else .ok (some (o.vaddrStart + idx * pgSize), { h with
          vaddr := bitmapSetRun h.vaddr idx true n, frames := h.frames - n,
          owned := (o.vaddrStart + idx * pgSize, n) :: h.owned })) = .ok (found, h') := by
      split at got
      · simp only [bind_ok, assertThat_ok, exists_const] at got
        exact got.2
      · exact got
    split at rest
    · cases rest
      exact .inr ⟨rfl, rfl, rfl, bitmapSetRun_len _ _ _ _, more idx⟩
    · cases rest
      exact .inl ⟨_, rfl, rfl, rfl, bitmapSetRun_len _ _ _ _, bound.1, idx, rfl, rfl, bitmapScan_some scanned⟩

/-- The bit of a page of a run. -/
theorem PageRun.Inside.bit {r : PageRun} {start len : Nat} (inside : r.Inside start len) (aligned : start % pgSize = 0) :
    r.addr = start + (r.addr - start) / pgSize * pgSize := by
  have := inside.aligned
  have := inside.low
  simp only [pgSize] at *
  omega

/-- Two runs, one with clear bits and one with set bits. -/
theorem PageRun.Inside.apart_of_bits {r r' : PageRun} {start len : Nat} {b : Bitmap} (inside : r.Inside start len)
    (inside' : r'.Inside start len) (aligned : start % pgSize = 0) (clear : ∀ j, r.HasBit start j → ¬ b.Set j)
    (set : ∀ j, r'.HasBit start j → b.Set j) : r.Apart r' := by
  have pages := inside.pages
  have pages' := inside'.pages
  have at_ := inside.bit aligned
  have at' := inside'.bit aligned
  by_contra overlap
  simp only [PageRun.Apart, not_or, not_le, pgSize] at overlap at_ at'
  -- the first page the two share has its bit both set and clear
  rcases Nat.le_total r.addr r'.addr with le | le
  · exact clear ((r'.addr - start) / pgSize) (by simp only [PageRun.HasBit, pgSize]; omega)
      (set _ (by simp only [PageRun.HasBit]; omega))
  · exact clear ((r.addr - start) / pgSize) (by simp only [PageRun.HasBit]; omega)
      (set _ (by simp only [PageRun.HasBit, pgSize]; omega))

/-- A run from `malloc_page` is fresh. -/
theorem PagesTaken.fresh (taken : PagesTaken o h h' a n) (inv : HeapInv o h A) (own : o.Ok h.vaddr.btmpBytesLen)
    (cls : Option Nat) :
    (PageRun.mk a n cls).Inside o.vaddrStart h.vaddr.btmpBytesLen ∧ ∀ r ∈ A.runs, (PageRun.mk a n cls).Apart r := by
  obtain ⟨idx, start, -, clear⟩ := taken.start
  have pages := taken.pages
  have last := (clear (n - 1) (by omega)).1
  have aligned := own.aligned
  have inside : (PageRun.mk a n cls).Inside o.vaddrStart h.vaddr.btmpBytesLen := by
    refine ⟨?_, pages, ?_, ?_⟩ <;> simp only [pgSize] at * <;> omega
  refine ⟨inside, fun r mem => inside.apart_of_bits (inv.ok.inside r mem) aligned (fun j has => ?_) (inv.bits r mem)⟩
  have isStart : (a - o.vaddrStart) / pgSize = idx := by
    simp only [pgSize] at start ⊢
    omega
  simp only [PageRun.HasBit, isStart] at has
  have := (clear (j - idx) (by omega)).2
  rw [show idx + (j - idx) = j by omega] at this
  exact this

/-- A heap with a new run. -/
theorem HeapInv.grown (inv : HeapInv o h A) (own : o.Ok h.vaddr.btmpBytesLen) (taken : PagesTaken o h h' a n)
    (ok : A'.Ok o.vaddrStart h.vaddr.btmpBytesLen) (runs : A'.runs = ⟨a, n, cls⟩ :: A.runs) {m : Mem}
    (memory : Shows o m A') (beside : SameBeside o A'.runs h.mem m) : Moves o h A { h' with mem := m } A' := by
  obtain ⟨fits, apart⟩ := taken.fresh inv own cls
  obtain ⟨idx, start, vaddr, clear⟩ := taken.start
  have isStart : (a - o.vaddrStart) / pgSize = idx := by
    simp only [pgSize] at start ⊢
    omega
  refine ⟨⟨by rw [taken.len]; exact ok, memory, ?_, ?_, ?_⟩, taken.len, fun x _ out => beside x out,
    fun j set => .inl ?_, ?_⟩
  · intro a' n'
    show (a', n') ∈ h'.owned ↔ _
    rw [taken.owned, runs, List.mem_cons, inv.owned]
    constructor
    · rintro (e | ⟨c, mem⟩)
      · cases e
        exact ⟨cls, by simp⟩
      · exact ⟨c, List.mem_cons_of_mem _ mem⟩
    · rintro ⟨c, mem⟩
      rcases List.mem_cons.1 mem with e | mem
      · cases e
        exact .inl rfl
      · exact .inr ⟨c, mem⟩
  · show h'.owned.Nodup
    rw [taken.owned, List.nodup_cons]
    refine ⟨fun mem => ?_, inv.nodup⟩
    obtain ⟨c, mem⟩ := (inv.owned a n).1 mem
    have := apart _ mem
    have := taken.pages
    simp only [PageRun.Apart, pgSize] at *
    omega
  · intro r mem j has
    show h'.vaddr.Set _
    rw [vaddr, set_bitmapSetRun]
    rw [runs] at mem
    rcases List.mem_cons.1 mem with rfl | mem
    · rw [if_pos]
      simp only [PageRun.HasBit, isStart] at has
      exact has
    · split
      · rfl
      · exact inv.bits r mem j has
  · show h'.vaddr.Set j
    rw [vaddr, set_bitmapSetRun]
    split
    · rfl
    · exact set
  · intro r mem
    rw [runs] at mem
    rcases List.mem_cons.1 mem with rfl | mem
    · refine .inr fun j has => ?_
      simp only [PageRun.HasBit, isStart] at has
      have := (clear (j - idx) (by omega)).2
      rw [show idx + (j - idx) = j by omega] at this
      exact this
    · exact .inl mem

theorem HeapInv.lost (inv : HeapInv o h A) (lost : PagesLost h h') : Moves o h A h' A := by
  obtain ⟨mem, owned, len, bits⟩ := lost
  refine ⟨⟨by rw [len]; exact inv.ok, by rw [mem]; exact inv.memory, by rw [owned]; exact inv.owned,
    by rw [owned]; exact inv.nodup, fun r hr j has => bits j (inv.bits r hr j has)⟩, len, ?_,
    fun j set => .inl (bits j set), fun r hr => .inl hr⟩
  intro x _ _
  rw [mem]

/-- A call that touches no page. -/
theorem Moves.then (move : Moves o h A h' A') {A'' : Arenas} {m : Mem}
    (ok : A''.Ok o.vaddrStart h'.vaddr.btmpBytesLen) (runs : A''.runs = A'.runs) (memory : Shows o m A'')
    (beside : SameBeside o A'.runs h'.mem m) : Moves o h A { h' with mem := m } A'' := by
  have inv := move.inv
  refine ⟨⟨ok, memory, by rw [runs]; exact inv.owned, inv.nodup, by rw [runs]; exact inv.bits⟩, move.len, ?_,
    move.bits, by rw [runs]; exact move.runs⟩
  intro x out out'
  rw [runs] at out'
  exact (beside x out').trans (move.mem x out out')

theorem HeapInv.stays (inv : HeapInv o h A) : Moves o h A h A :=
  ⟨inv, rfl, fun _ _ _ => rfl, fun _ set => .inl set, fun _ hr => .inl hr⟩

/-- Giving a run back. -/
theorem HeapInv.shrunk (inv : HeapInv o h A) (own : o.Ok h.vaddr.btmpBytesLen) (mem : ⟨a, n, cls⟩ ∈ A.runs)
    (ok : A'.Ok o.vaddrStart h.vaddr.btmpBytesLen) (runs : A'.runs = A.runs.erase ⟨a, n, cls⟩) {m : Mem}
    (memory : Shows o m A') (beside : SameBeside o A.runs h.mem m) :
    ∃ h', mfreePage o { h with mem := m } a n = .ok h' ∧ Moves o h A h' A' := by
  have inside := inv.ok.inside _ mem
  have start := inside.bit own.aligned
  have pages := inside.pages
  refine ⟨{ mem := m, vaddr := bitmapSetRun h.vaddr ((a - o.vaddrStart) / pgSize) false n,
            frames := h.frames + n, owned := h.owned.erase (a, n) }, ?_,
    ⟨?_, memory, ?_, inv.nodup.erase _, ?_⟩, bitmapSetRun_len _ _ _ _,
    fun x out _ => beside x out, fun j set => ?_, fun r hr => .inl ?_⟩
  · simp only [mfreePage, assertThat_of (show 1 ≤ n ∧ a % pgSize = 0 from ⟨pages, inside.aligned⟩)]
    rfl
  · show A'.Ok _ (bitmapSetRun _ _ _ _).btmpBytesLen
    rw [bitmapSetRun_len]
    exact ok
  · intro a' n'
    show (a', n') ∈ h.owned.erase (a, n) ↔ _
    rw [inv.nodup.mem_erase_iff, inv.owned, runs]
    simp only [inv.ok.mem_erase]
    constructor
    · rintro ⟨ne, c, mem'⟩
      exact ⟨c, fun e => ne (by cases e; rfl), mem'⟩
    · rintro ⟨c, ne, mem'⟩
      refine ⟨fun e => ne ?_, c, mem'⟩
      cases e
      exact inv.ok.eq_of_addr mem' mem rfl
  · intro r hr j has
    rw [runs, inv.ok.mem_erase] at hr
    show (bitmapSetRun _ _ _ _).Set _
    rw [set_bitmapSetRun, if_neg]
    · exact inv.bits r hr.2 j has
    · have start' := (inv.ok.inside r hr.2).bit own.aligned
      rcases inv.ok.eq_or_apart hr.2 mem with e | apart
      · exact absurd e hr.1
      · simp only [PageRun.HasBit, PageRun.Apart, pgSize] at has apart start start' ⊢
        omega
  · show (bitmapSetRun _ _ _ _).Set j ∨ _
    rw [set_bitmapSetRun]
    split
    · rename_i has
      exact .inr ⟨_, mem, has⟩
    · exact .inl set
  · rw [runs] at hr
    exact List.mem_of_mem_erase hr

end Pages

section Calls

variable {o : HeapOwner} {h h' : Heap} {A : Arenas} {p size : Nat}

/-- `sys_malloc` chooses a class whose blocks are large enough. -/
theorem descFor_spec {m : Mem} (sh : Shows o m A) (le : size ≤ 1024) :
    descFor o m size < descCnt ∧ size ≤ blockSize (descFor o m size) := by
  have large : size ≤ m (o.desc 6) := by
    rw [(sh.descs 6 (by decide)).1]
    exact le
  obtain ⟨i, found⟩ : ∃ i, (List.range descCnt).find? (fun descIdx => size ≤ m (o.desc descIdx)) = some i := by
    rw [← Option.isSome_iff_exists, List.find?_isSome]
    exact ⟨6, by decide, by simpa using large⟩
  have lt : i < descCnt := List.mem_range.1 (List.mem_of_find?_eq_some found)
  have fits := List.find?_some found
  rw [decide_eq_true_eq, (sh.descs i lt).1] at fits
  simp only [descFor, found, Option.getD_some]
  exact ⟨lt, fits⟩

/-- What a call of `sys_malloc` did: nothing, or one more block of the size asked for. -/
def Gave (o : HeapOwner) (h : Heap) (A : Arenas) (size : Nat) (p : Nat) (h' : Heap) : Prop :=
  (p = 0 ∧ Moves o h A h' A) ∨ (p ≠ 0 ∧ ∃ A', Moves o h A h' A' ∧ A'.live = (p, size) :: A.live)

/-- The end of `sys_malloc`, when the class has a free block. -/
theorem takeBlock_gave {i : Nat} {h1 : Heap} {A1 : Arenas} (move : Moves o h A h1 A1) (same : A1.live = A.live)
    (own : o.Ok h.vaddr.btmpBytesLen) (le : size ≤ blockSize i) (some_ : A1.free i ≠ []) :
    Gave o h A size (takeBlock h1 (o.desc i)).1 (takeBlock h1 (o.desc i)).2 := by
  obtain ⟨b, L, first⟩ := List.exists_cons_of_ne_nil some_
  have inv := move.inv
  have own1 : o.Ok h1.vaddr.btmpBytesLen := by
    rw [move.len]
    exact own
  obtain ⟨isBlock, memory, beside⟩ := inv.memory.take inv.ok own1 first size
  have pos : 0 < b := by
    obtain ⟨a, small, inArena⟩ := inv.ok.freeIn i b (by simp [first])
    have := inArena.bounds
    omega
  refine .inr ⟨by omega, A1.take i b L size, move.then (inv.ok.take first le) rfl memory beside, ?_⟩
  rw [isBlock, ← same]
  rfl

/-- What the attempt to get a new arena of class `i` left behind. -/
def NewArena (o : HeapOwner) (A : Arenas) (i : Nat) (h : Heap) (found : Bool) (h' : Heap) : Prop :=
  (found = false ∧ Moves o h A h' A) ∨ (found = true ∧ ∃ a, Moves o h A h' (A.addSmall a i))

/-- A class without a free block gets an arena when there is a page. -/
theorem newArena_of {i : Nat} {page : Option Nat} {h1 : Heap} (inv : HeapInv o h A) (own : o.Ok h.vaddr.btmpBytesLen)
    (lt : i < descCnt) (none : A.free i = []) (pages : mallocPage o h 1 = .ok (page, h1)) :
    ∃ found h', newArena o h (o.desc i) = .ok (found, h') ∧ NewArena o A i h found h' := by
  simp only [newArena, pages, ok_bind]
  rcases mallocPage_cases pages with ⟨a, rfl, taken⟩ | ⟨rfl, lost⟩
  · obtain ⟨inside, fresh⟩ := taken.fresh inv own (some i)
    obtain ⟨m', done, memory, beside⟩ := inv.memory.addSmall inv.ok own lt none inside fresh
    have low := inside.low
    have high := inside.high
    have apart := own.apart
    have count : memset0 h.mem a pgSize (o.desc i + 4) = perArena i := by
      rw [memset0_out]
      · exact (inv.memory.descs i lt).2
      · simp only [HeapOwner.desc, descSize, descCnt, pgSize] at *
        omega
    have count' : setArena (memset0 h.mem a pgSize) a (o.desc i) (perArena i) 0 (o.desc i + 4) = perArena i := by
      simp only [setArena]
      rw [store_ne, store_ne, store_ne, count] <;>
        simp only [HeapOwner.desc, descSize, descCnt, pgSize] at * <;> omega
    simp only [taken.mem]
    rw [count, count', done]
    exact ⟨true, _, rfl, .inr ⟨rfl, a, inv.grown own taken (inv.ok.addSmall none lt inside fresh) rfl memory beside⟩⟩
  · exact ⟨false, h1, rfl, .inl ⟨rfl, inv.lost lost⟩⟩

theorem newArena_inv {i : Nat} {found : Bool} (inv : HeapInv o h A) (own : o.Ok h.vaddr.btmpBytesLen)
    (lt : i < descCnt) (none : A.free i = []) (got : newArena o h (o.desc i) = .ok (found, h')) :
    NewArena o A i h found h' := by
  have split := got
  rw [newArena, bind_ok] at split
  obtain ⟨⟨page, h1⟩, pages, -⟩ := split
  obtain ⟨found', h'', same, new⟩ := newArena_of inv own lt none pages
  rw [same] at got
  cases got
  exact new

/-- **`sys_malloc`** keeps the heap in order. -/
theorem sysMalloc_gave (inv : HeapInv o h A) (own : o.Ok h.vaddr.btmpBytesLen)
    (got : sysMalloc o h size = .ok (p, h')) : Gave o h A size p h' := by
  simp only [sysMalloc] at got
  split at got
  · cases got
    exact .inl ⟨rfl, inv.stays⟩
  · rename_i bounds
    rw [not_not] at bounds
    split at got
    · rename_i large
      rw [bind_ok] at got
      obtain ⟨⟨page, h1⟩, pages, got⟩ := got
      rcases mallocPage_cases pages with ⟨a, rfl, taken⟩ | ⟨rfl, lost⟩
      · cases got
        obtain ⟨inside, fresh⟩ := taken.fresh inv own none
        have le : size + arenaSize ≤ (size + arenaSize + (pgSize - 1)) / pgSize * pgSize := by
          simp only [pgSize, arenaSize]
          omega
        obtain ⟨memory, beside⟩ := inv.memory.addLarge inv.ok own inside fresh size
        refine .inr ⟨by simp [arenaSize], A.addLarge a ((size + arenaSize + (pgSize - 1)) / pgSize) size, ?_, rfl⟩
        rw [taken.mem]
        exact inv.grown own taken (inv.ok.addLarge inside fresh ⟨le, large⟩) rfl memory beside
      · cases got
        exact .inl ⟨rfl, inv.lost lost⟩
    · rename_i notLarge
      obtain ⟨lt, le⟩ := descFor_spec inv.memory (show size ≤ 1024 by omega)
      generalize descFor o h.mem size = i at got lt le
      have list := inv.memory.lists i lt
      split at got
      · rename_i empty
        have none := list.empty_iff.1 empty
        rw [bind_ok] at got
        obtain ⟨⟨found, h1⟩, arena, got⟩ := got
        obtain ⟨rfl, move⟩ | ⟨rfl, a, move⟩ := newArena_inv inv own lt none arena
        · cases got
          exact .inl ⟨rfl, move⟩
        · have some_ : (A.addSmall a i).free i ≠ [] := by
            have := perArena_pos lt
            rw [show (A.addSmall a i).free i = (List.range (perArena i)).map (blockAt a i) from if_pos rfl]
            simp
            omega
          simp only [pure_ok] at got
          have gave := takeBlock_gave move rfl own le some_
          rw [got] at gave
          exact gave
      · rename_i notEmpty
        simp only [pure_ok] at got
        have gave := takeBlock_gave inv.stays rfl own le (fun none => notEmpty (list.empty_iff.2 none))
        rw [got] at gave
        exact gave

/-- The header in front of a large block. -/
theorem large_arena {a : Nat} (aligned : a % pgSize = 0) : block2arena (a + arenaSize) = a := by
  simp only [block2arena, arenaSize, pgSize] at *
  omega

/-- A large block gives its pages back. -/
theorem giveBack_large {a : Nat} (arena : block2arena p = a) (isNull : h.mem a = 0) (isLarge : h.mem (a + 8) = 1) :
    giveBack o h p = mfreePage o h a (h.mem (a + 4)) := by
  simp only [giveBack, arena, assertThat_of (show h.mem (a + 8) = 0 ∨ h.mem (a + 8) = 1 from .inr isLarge), ok_bind,
    if_pos (show h.mem a = 0 ∧ h.mem (a + 8) = 1 from ⟨isNull, isLarge⟩)]

/-- The first assertions of `sys_free` hold for an address of the heap. -/
theorem sysFree_inside {len : Nat} (own : o.Ok len) (low : o.vaddrStart ≤ p) : sysFree o h p = giveBack o h p := by
  have positive := own.low
  simp only [sysFree, assertThat_of (show p ≠ 0 by omega), ok_bind]
  cases user : o.user with
  | true => rfl
  | false =>
    have := own.kernel user
    simp only [Bool.false_eq_true, not_false_eq_true, if_true, assertThat_of (show kHeapStart ≤ p by omega), ok_bind]

/-- What a call of `sys_free` did: the block is not handed out any more. -/
def Took (o : HeapOwner) (h : Heap) (A : Arenas) (p : Nat) (h' : Heap) : Prop :=
  ∃ A', Moves o h A h' A' ∧ A'.live = A.live.filter fun x => x.1 ≠ p

/-- `sys_free` of a large arena. -/
theorem freeLarge_took {a n : Nat} (inv : HeapInv o h A) (own : o.Ok h.vaddr.btmpBytesLen) (large : A.Large a n) :
    ∃ h', mfreePage o h a n = .ok h' ∧ Took o h A (a + arenaSize) h' := by
  obtain ⟨h', done, move⟩ := inv.shrunk own large (inv.ok.dropLarge large) rfl (m := h.mem) inv.memory.dropLarge
    (SameBeside.refl _ _ _)
  exact ⟨h', done, _, move, rfl⟩

/-- `sys_free` of a block, after the block is back on its list. -/
theorem freeSmall_took {a i b : Nat} (inv : HeapInv o h A) (own : o.Ok h.vaddr.btmpBytesLen) (small : A.Small a i)
    (isBlock : IsBlock a i b) (live : A.Live b) {m : Mem} (memory : Shows o m (A.give i b))
    (beside : SameBeside o A.runs h.mem m) :
    ∃ h', (if m (a + 4) = m (m a + 4) then do
        let m ← (List.range (m (m a + 4))).foldlM (dropBlock a) m
        mfreePage o { h with mem := m } a 1
      else return { h with mem := m }) = .ok h' ∧ Took o h A b h' := by
  have ok := inv.ok.give small isBlock live
  have lt := inv.ok.cls_lt small
  have small' : (A.give i b).Small a i := small
  rw [(memory.headers _ small').1, (memory.descs i lt).2, memory.counts a i small']
  have move : Moves o h A { h with mem := m } (A.give i b) := inv.stays.then ok rfl memory beside
  split
  · rename_i full
    obtain ⟨m', done, memory', beside'⟩ := memory.drop ok own small' full
    obtain ⟨h', freed, ⟨inv', len, beside'', bits, runs⟩⟩ := move.inv.shrunk own small'
      (ok.dropSmall small' fun c hc => ok.all_free small' full hc) rfl memory' beside'
    refine ⟨h', ?_, _, ⟨inv', len, fun x out out' => (beside'' x out out').trans (beside x out), bits, runs⟩, rfl⟩
    rw [done]
    exact freed
  · exact ⟨_, rfl, _, move, rfl⟩

theorem giveBack_took (inv : HeapInv o h A) (own : o.Ok h.vaddr.btmpBytesLen) (live : A.Live p) :
    ∃ h', giveBack o h p = .ok h' ∧ Took o h A p h' := by
  obtain ⟨⟨q, s⟩, mem, rfl⟩ := List.mem_map.1 live
  rcases inv.ok.liveIn q s mem with ⟨a, i, small, isBlock, -⟩ | ⟨a, n, large, rfl, -⟩
  · have arena := isBlock.arena (inv.ok.aligned small)
    have lt := inv.ok.cls_lt small
    obtain ⟨isDesc, notLarge⟩ := inv.memory.headers _ small
    simp only at isDesc notLarge
    obtain ⟨memory, beside⟩ := inv.memory.give inv.ok own small isBlock live
    obtain ⟨h', done, took⟩ := freeSmall_took inv own small isBlock live memory beside
    refine ⟨h', ?_, took⟩
    have which : ¬ (o.desc i = 0 ∧ h.mem (a + 8) = 1) := by omega
    simp only [giveBack, arena, assertThat_of (show h.mem (a + 8) = 0 ∨ h.mem (a + 8) = 1 from .inl notLarge), ok_bind,
      if_neg which, isDesc]
    exact done
  · have arena := large_arena (inv.ok.inside _ large).aligned
    obtain ⟨isNull, isCnt, isLarge⟩ := inv.memory.headers _ large
    simp only at isNull isCnt isLarge
    obtain ⟨h', done, took⟩ := freeLarge_took inv own large
    refine ⟨h', ?_, took⟩
    rw [giveBack_large arena isNull isLarge, isCnt]
    exact done

/-- **`sys_free`** of a block that is handed out returns and keeps the heap in order. -/
theorem sysFree_took (inv : HeapInv o h A) (own : o.Ok h.vaddr.btmpBytesLen) (live : A.Live p) :
    ∃ h', sysFree o h p = .ok h' ∧ Took o h A p h' := by
  obtain ⟨r, mem, low, -⟩ := inv.ok.live_inside live
  have lowest := (inv.ok.inside r mem).low
  obtain ⟨h', done, took⟩ := giveBack_took inv own live
  exact ⟨h', by rw [sysFree_inside own (by omega)]; exact done, took⟩

end Calls

/-! The client's view. -/

/-- The heap with the blocks its client holds: their addresses and the sizes asked for. -/
structure HeapState where
  heap : Heap
  live : List (Nat × Nat)

/-- The calls, and what the client does inside its own blocks. Only a block that is handed
out is given back. -/
inductive HeapStep (o : HeapOwner) : HeapState → HeapState → Prop where
  | malloc {h h' : Heap} {live : List (Nat × Nat)} {size p : Nat} (call : sysMalloc o h size = .ok (p, h')) :
    HeapStep o ⟨h, live⟩ ⟨h', if p = 0 then live else (p, size) :: live⟩
  | free {h h' : Heap} {live : List (Nat × Nat)} {p : Nat} (held : p ∈ live.map Prod.fst)
    (call : sysFree o h p = .ok h') : HeapStep o ⟨h, live⟩ ⟨h', live.filter fun x => x.1 ≠ p⟩
  | use {h : Heap} {live : List (Nat × Nat)} {p size : Nat} {m : Mem} (held : (p, size) ∈ live)
    (only : ∀ x, ¬ (p ≤ x ∧ x < p + size) → m x = h.mem x) : HeapStep o ⟨h, live⟩ ⟨{ h with mem := m }, live⟩

/-- How many bytes the block at `p` has, as its arena says. -/
def capacity (m : Mem) (p : Nat) : Nat :=
  let a := block2arena p
  if m (a + 8) = 1 then m (a + 4) * pgSize - arenaSize else m (m a)

/-- The pages `sys_malloc` asks `malloc_page` for. -/
def pagesNeeded (o : HeapOwner) (h : Heap) (size : Nat) : Option Nat :=
  if ¬ (0 < size ∧ size < o.poolSize) then none
  else if 1024 < size then some ((size + arenaSize + (pgSize - 1)) / pgSize)
  else if listEmpty h.mem (o.desc (descFor o h.mem size) + 8) then some 1
  else none

/-- The page at `a` is an arena of class `i`. -/
def ArenaOf (o : HeapOwner) (h : Heap) (a i : Nat) : Prop := (a, 1) ∈ h.owned ∧ h.mem a = o.desc i

/-- What the client can rely on. -/
structure HeapSound (o : HeapOwner) (s : HeapState) : Prop where
  room : ∀ p size, (p, size) ∈ s.live → size ≤ capacity s.heap.mem p
  disjoint : s.live.Pairwise fun x y =>
    x.1 + capacity s.heap.mem x.1 ≤ y.1 ∨ y.1 + capacity s.heap.mem y.1 ≤ x.1
  headers : ∀ x ∈ s.live, ∀ a n, (a, n) ∈ s.heap.owned →
    x.1 + capacity s.heap.mem x.1 ≤ a ∨ a + arenaSize ≤ x.1
  lists : ∀ i, i < descCnt → ∃ L, IsList s.heap.mem (o.desc i + 8) L ∧ L.Nodup ∧
    (∀ b, b ∈ L ↔ b ∉ s.live.map Prod.fst ∧ ∃ a j, ArenaOf o s.heap a i ∧ j < s.heap.mem (o.desc i + 4) ∧
      b = arena2block s.heap.mem a j) ∧
    ∀ a, ArenaOf o s.heap a i → s.heap.mem (a + 4) = (L.filter fun b => block2arena b == a).length
  mallocReturns : ∀ size, (∀ n, pagesNeeded o s.heap size = some n → ∃ r, mallocPage o s.heap n = .ok r) →
    ∃ r, sysMalloc o s.heap size = .ok r
  freeReturns : ∀ p ∈ s.live.map Prod.fst, ∃ h', sysFree o s.heap p = .ok h'

section Sound

variable {o : HeapOwner} {h h' : Heap} {A : Arenas} {s s' : HeapState} {p size a i : Nat}

theorem capacity_small (inv : HeapInv o h A) (small : A.Small a i) (isBlock : IsBlock a i p) :
    capacity h.mem p = blockSize i := by
  obtain ⟨isDesc, notLarge⟩ := inv.memory.headers _ small
  simp only at isDesc notLarge
  simp only [capacity, isBlock.arena (inv.ok.aligned small), notLarge, isDesc, Nat.zero_ne_one, if_false]
  exact (inv.memory.descs i (inv.ok.cls_lt small)).1

theorem capacity_large {n : Nat} (inv : HeapInv o h A) (large : A.Large a n) :
    capacity h.mem (a + arenaSize) = n * pgSize - arenaSize := by
  obtain ⟨-, isCnt, isLarge⟩ := inv.memory.headers _ large
  have arena := large_arena (inv.ok.inside _ large).aligned
  simp only at isCnt isLarge
  simp only [capacity, arena, isLarge, isCnt, if_true]

/-- Where a block lies in its run. -/
structure InRun (m : Mem) (p : Nat) (r : PageRun) : Prop where
  low : r.addr + arenaSize ≤ p
  high : p + capacity m p ≤ r.addr + r.pages * pgSize
  large : r.cls = none → p = r.addr + arenaSize
  small : ∀ i, r.cls = some i → IsBlock r.addr i p ∧ capacity m p = blockSize i

/-- A block handed out has the size asked for and lies in a run. -/
theorem HeapInv.live_run (inv : HeapInv o h A) (mem : (p, size) ∈ A.live) :
    size ≤ capacity h.mem p ∧ ∃ r ∈ A.runs, InRun h.mem p r := by
  rcases inv.ok.liveIn p size mem with ⟨a, i, small, isBlock, le⟩ | ⟨a, n, large, rfl, le, -⟩
  · have room := capacity_small inv small isBlock
    have bounds := isBlock.bounds
    rw [room]
    refine ⟨le, _, small, ?_, ?_, by simp, ?_⟩
    · simp only [arenaSize]
      omega
    · simp only [room, pgSize]
      omega
    · intro k e
      cases e
      exact ⟨isBlock, room⟩
  · have room := capacity_large inv large
    have pages := (inv.ok.inside _ large).pages
    rw [room]
    simp only [arenaSize, pgSize] at le pages
    refine ⟨by simp only [arenaSize, pgSize]; omega, _, large, Nat.le_refl _, ?_, fun _ => rfl, by simp⟩
    rw [room]
    simp only [arenaSize, pgSize]
    omega

/-- Two blocks handed out do not overlap. -/
theorem HeapInv.live_disjoint {x y : Nat × Nat} (inv : HeapInv o h A) (hx : x ∈ A.live) (hy : y ∈ A.live)
    (ne : x.1 ≠ y.1) : x.1 + capacity h.mem x.1 ≤ y.1 ∨ y.1 + capacity h.mem y.1 ≤ x.1 := by
  obtain ⟨-, r, mem, inX⟩ := inv.live_run (show (x.1, x.2) ∈ A.live from hx)
  obtain ⟨-, r', mem', inY⟩ := inv.live_run (show (y.1, y.2) ∈ A.live from hy)
  rcases inv.ok.eq_or_apart mem mem' with rfl | apart
  · cases cls : r.cls with
    | none => exact absurd ((inX.large cls).trans (inY.large cls).symm) ne
    | some i =>
      obtain ⟨blockX, roomX⟩ := inX.small i cls
      obtain ⟨blockY, roomY⟩ := inY.small i cls
      rw [roomX, roomY]
      exact blockX.disjoint blockY ne
  · have := inX.low
    have := inX.high
    have := inY.low
    have := inY.high
    simp only [PageRun.Apart] at apart
    omega

/-- The blocks of class `i` that are free, as the memory names them. -/
theorem HeapInv.mem_free (inv : HeapInv o h A) (own : o.Ok h.vaddr.btmpBytesLen) (lt : i < descCnt) :
    (∀ a, ArenaOf o h a i ↔ A.Small a i) ∧
      ∀ b, b ∈ A.free i ↔ b ∉ A.live.map Prod.fst ∧ ∃ a j, ArenaOf o h a i ∧ j < h.mem (o.desc i + 4) ∧
        b = arena2block h.mem a j := by
  have arena : ∀ a, ArenaOf o h a i ↔ A.Small a i := by
    intro a
    constructor
    · rintro ⟨mem, isDesc⟩
      obtain ⟨cls, mem⟩ := (inv.owned a 1).1 mem
      have header := inv.memory.headers _ mem
      cases cls with
      | none =>
        have := own.descs
        simp only [HeaderOk] at header
        simp only [HeapOwner.desc] at isDesc
        omega
      | some k =>
        have e : o.desc k = o.desc i := header.1.symm.trans isDesc
        simp only [HeapOwner.desc, descSize] at e
        have : k = i := by omega
        subst this
        exact mem
    · intro small
      exact ⟨(inv.owned a 1).2 ⟨_, small⟩, (inv.memory.headers _ small).1⟩
  obtain ⟨isSize, isCount⟩ := inv.memory.descs i lt
  have named : ∀ a j, A.Small a i → arena2block h.mem a j = blockAt a i j := by
    intro a j small
    rw [arena2block, (inv.memory.headers _ small).1, isSize, blockAt]
  refine ⟨arena, fun b => ⟨fun mem => ?_, ?_⟩⟩
  · obtain ⟨a, small, j, lj, rfl⟩ := inv.ok.freeIn i b mem
    exact ⟨inv.ok.free_not_live mem, a, j, (arena a).2 small, by rw [isCount]; exact lj, (named a j small).symm⟩
  · rintro ⟨notLive, a, j, isArena, lj, rfl⟩
    have small := (arena a).1 isArena
    rw [named a j small] at notLive ⊢
    rw [isCount] at lj
    exact (inv.ok.split a i _ small ⟨j, lj, rfl⟩).2 notLive

/-- `sys_malloc` returns unless an assertion of `malloc_page` fails. -/
theorem sysMalloc_returns (inv : HeapInv o h A) (own : o.Ok h.vaddr.btmpBytesLen)
    (pages : ∀ n, pagesNeeded o h size = some n → ∃ r, mallocPage o h n = .ok r) : ∃ r, sysMalloc o h size = .ok r := by
  simp only [sysMalloc]
  simp only [pagesNeeded] at pages
  split
  · exact ⟨_, rfl⟩
  · rename_i bounds
    rw [if_neg bounds] at pages
    split
    · rename_i large
      rw [if_pos large] at pages
      obtain ⟨⟨page, h1⟩, got⟩ := pages _ rfl
      rw [got]
      cases page with
      | none => exact ⟨_, rfl⟩
      | some a => exact ⟨_, rfl⟩
    · rename_i notLarge
      rw [if_neg notLarge] at pages
      obtain ⟨lt, -⟩ := descFor_spec inv.memory (show size ≤ 1024 by omega)
      generalize descFor o h.mem size = i at *
      split
      · rename_i empty
        rw [if_pos empty] at pages
        obtain ⟨⟨page, h1⟩, got⟩ := pages _ rfl
        have none := (inv.memory.lists i lt).empty_iff.1 empty
        obtain ⟨found, h2, arena, -⟩ := newArena_of inv own lt none got
        rw [arena]
        cases found with
        | false => exact ⟨_, rfl⟩
        | true => exact ⟨_, rfl⟩
      · exact ⟨_, rfl⟩

theorem HeapInv.sound (inv : HeapInv o s.heap A) (own : o.Ok s.heap.vaddr.btmpBytesLen) (live : A.live = s.live) :
    HeapSound o s := by
  refine ⟨?_, ?_, ?_, ?_, ?_, ?_⟩
  · intro p size mem
    exact (inv.live_run (live ▸ mem)).1
  · rw [← live]
    exact (List.pairwise_map.1 inv.ok.liveNodup).imp_of_mem fun hx hy ne => inv.live_disjoint hx hy ne
  · intro x mem a n owned
    obtain ⟨cls, run⟩ := (inv.owned a n).1 owned
    obtain ⟨-, r, mem', inX⟩ := inv.live_run (show (x.1, x.2) ∈ A.live from live ▸ mem)
    have low := inX.low
    have high := inX.high
    rcases inv.ok.eq_or_apart run mem' with rfl | apart
    · exact .inr low
    · have := (inv.ok.inside _ run).pages
      simp only [PageRun.Apart, pgSize, arenaSize] at *
      omega
  · intro i lt
    obtain ⟨arena, free⟩ := inv.mem_free own lt
    rw [live] at free
    refine ⟨A.free i, inv.memory.lists i lt, inv.ok.nodup i, free, fun a isArena => ?_⟩
    rw [inv.memory.counts a i ((arena a).1 isArena), countIn, List.countP_eq_length_filter]
  · intro size pages
    exact sysMalloc_returns inv own pages
  · intro p mem
    rw [← live] at mem
    obtain ⟨h', done, -⟩ := sysFree_took inv own mem
    exact ⟨h', done⟩

/-- What the client writes into its own block is no word of the heap. -/
theorem HeapInv.use (inv : HeapInv o h A) (own : o.Ok h.vaddr.btmpBytesLen) (mem : (p, size) ∈ A.live) {m : Mem}
    (only : ∀ x, ¬ (p ≤ x ∧ x < p + size) → m x = h.mem x) : HeapInv o { h with mem := m } A := by
  obtain ⟨room, r, run, inR⟩ := inv.live_run mem
  have low := inR.low
  have high := inR.high
  have outside : ∀ x, ¬ (p ≤ x ∧ x < p + capacity h.mem p) → m x = h.mem x := fun x out => only x (by omega)
  have desc : ∀ i x, i < descCnt → o.desc i ≤ x ∧ x < o.desc i + 24 → m x = h.mem x := by
    intro i x lt hx
    refine outside x fun hp => ?_
    have := inv.ok.beside_descs own run lt (x := x) (by simp only [arenaSize] at *; omega) (by omega)
    omega
  have header : ∀ r' ∈ A.runs, ∀ x, r'.addr ≤ x ∧ x < r'.addr + 12 → m x = h.mem x := by
    intro r' mem' x hx
    have pages := (inv.ok.inside r' mem').pages
    refine outside x fun hp => ?_
    rcases inv.ok.eq_or_apart mem' run with rfl | apart
    · simp only [arenaSize] at low
      omega
    · simp only [PageRun.Apart, pgSize, arenaSize] at *
      omega
  have memory : Shows o m A → HeapInv o { h with mem := m } A := fun sh => ⟨inv.ok, sh, inv.owned, inv.nodup, inv.bits⟩
  refine memory ⟨?_, ?_, ?_, ?_⟩
  · intro i lt
    rw [desc i _ lt (by omega), desc i _ lt (by omega)]
    exact inv.memory.descs i lt
  · intro i lt
    refine (inv.memory.lists i lt).congr fun x hx => ?_
    obtain ⟨u, node, hu⟩ := hx
    simp only [nodesOf, List.cons_append, List.mem_cons, List.mem_append, List.not_mem_nil, or_false] at node
    rcases node with rfl | free | rfl
    · exact desc i x lt (by omega)
    · -- a free block is another block of the run, or lies in another run
      obtain ⟨a, small, isBlock⟩ := inv.ok.freeIn i u free
      have bounds := isBlock.bounds
      have size16 := blockSize_ge i
      refine outside x fun hp => ?_
      rcases inv.ok.eq_or_apart run small with rfl | apart
      · obtain ⟨block, roomIs⟩ := inR.small i rfl
        have ne : u ≠ p := by
          rintro rfl
          exact inv.ok.free_not_live free (List.mem_map.2 ⟨_, mem, rfl⟩)
        rw [roomIs] at hp
        rcases isBlock.disjoint block ne with h | h <;> omega
      · simp only [PageRun.Apart, pgSize, arenaSize] at *
        omega
    · exact desc i x lt (by omega)
  · intro r' mem'
    have old := inv.memory.headers r' mem'
    simp only [HeaderOk] at old ⊢
    rw [header r' mem' _ (by omega), header r' mem' _ (by omega), header r' mem' _ (by omega)]
    exact old
  · intro a i small
    rw [header _ small _ (by simp only; omega)]
    exact inv.memory.counts a i small

/-- The descriptors after the first turns of `block_desc_init`. -/
theorem blockDescInit_turns (m : Mem) (descArray : Nat) :
    ∀ cnt, let s := (List.range cnt).foldl (blockDescTurn descArray) (m, 16)
      s.2 = blockSize cnt ∧ ∀ i, i < cnt → s.1 (descArray + descSize * i) = blockSize i ∧
        s.1 (descArray + descSize * i + 4) = perArena i ∧ IsList s.1 (descArray + descSize * i + 8) [] := by
  intro cnt
  induction cnt with
  | zero => exact ⟨rfl, fun i lt => absurd lt (Nat.not_lt_zero i)⟩
  | succ cnt ih =>
    simp only [List.range_succ, List.foldl_append, List.foldl_cons, List.foldl_nil]
    generalize (List.range cnt).foldl (blockDescTurn descArray) (m, 16) = s at ih
    obtain ⟨size, before⟩ := ih
    have frame : ∀ x, x < descArray + descSize * cnt → (blockDescTurn descArray s cnt).1 x = s.1 x := by
      intro x hx
      simp only [blockDescTurn, listInit]
      rw [store_ne, store_ne, store_ne, store_ne, store_ne, store_ne] <;> omega
    refine ⟨?_, fun i lt => ?_⟩
    · simp only [blockDescTurn, size, blockSize]
      omega
    · by_cases e : i = cnt
      · subst e
        refine ⟨?_, ?_, isList_init⟩
        · simp only [blockDescTurn, listInit]
          rw [store_ne, store_ne, store_ne, store_ne, store_ne, store_same, size] <;> omega
        · simp only [blockDescTurn, listInit]
          rw [store_ne, store_ne, store_ne, store_ne, store_same, size, perArena] <;> omega
      · obtain ⟨h1, h2, h3⟩ := before i (by omega)
        have below : descArray + descSize * i + 24 ≤ descArray + descSize * cnt := by
          simp only [descSize]
          omega
        refine ⟨by rw [frame _ (by omega)]; exact h1, by rw [frame _ (by omega)]; exact h2, h3.congr fun x hx => ?_⟩
        obtain ⟨u, node, hu⟩ := hx
        simp only [nodesOf, List.cons_append, List.mem_cons, List.nil_append, List.not_mem_nil, or_false] at node
        exact frame x (by omega)

/-- A heap nobody has used yet, over any bitmap of pages. -/
def freshHeap (o : HeapOwner) (m : Mem) (vaddr : Bitmap) (frames : Nat) : HeapState :=
  ⟨⟨blockDescInit m o.descs, vaddr, frames, []⟩, []⟩

theorem freshHeap_inv (o : HeapOwner) (m : Mem) (vaddr : Bitmap) (frames : Nat) :
    HeapInv o (freshHeap o m vaddr frames).heap ⟨[], fun _ => [], []⟩ := by
  have turns := (blockDescInit_turns m o.descs descCnt).2
  refine ⟨⟨nofun, .nil, nofun, fun _ => .nil, nofun, nofun, nofun, .nil⟩, ⟨?_, ?_, nofun, nofun⟩, ?_, .nil, nofun⟩
  · exact fun i lt => ⟨(turns i lt).1, (turns i lt).2.1⟩
  · exact fun i lt => (turns i lt).2.2
  · intro a n
    exact ⟨nofun, nofun⟩

/-- `block_desc_init` touches the descriptors only. -/
theorem blockDescInit_frame (m : Mem) (descArray : Nat) {x : Nat}
    (out : x < descArray ∨ descArray + descSize * descCnt ≤ x) : blockDescInit m descArray x = m x := by
  have turns : ∀ cnt, cnt ≤ descCnt →
      ((List.range cnt).foldl (blockDescTurn descArray) (m, 16)).1 x = m x := by
    intro cnt
    induction cnt with
    | zero => exact fun _ => rfl
    | succ cnt ih =>
      intro le
      rw [List.range_succ, List.foldl_append, ← ih (by omega)]
      simp only [List.foldl_cons, List.foldl_nil, blockDescTurn, listInit]
      simp only [descSize, descCnt] at *
      rw [store_ne, store_ne, store_ne, store_ne, store_ne, store_ne] <;> omega
  exact turns descCnt (Nat.le_refl _)

/-- A heap is what its own words say. -/
theorem HeapInv.congr (inv : HeapInv o h A) {m : Mem} {frames : Nat}
    (same : ∀ x, o.Owns A.runs x → m x = h.mem x) : HeapInv o { h with mem := m, frames := frames } A := by
  have memory : Shows o m A → HeapInv o { h with mem := m, frames := frames } A :=
    fun sh => ⟨inv.ok, sh, inv.owned, inv.nodup, inv.bits⟩
  have header : ∀ r ∈ A.runs, ∀ x, r.addr ≤ x ∧ x < r.addr + 12 → m x = h.mem x := by
    intro r mem x hx
    have := (inv.ok.inside r mem).pages
    exact same x (.inr ⟨r, mem, hx.1, by simp only [pgSize]; omega⟩)
  refine memory ⟨?_, ?_, ?_, ?_⟩
  · intro i lt
    rw [same _ (owns_desc lt (by omega)), same _ (owns_desc lt (by omega))]
    exact inv.memory.descs i lt
  · intro i lt
    exact (inv.memory.lists i lt).congr fun x hx => same x (owns_local lt (local_of_nodes (inv.ok.freeIn i) hx))
  · intro r mem
    have old := inv.memory.headers r mem
    simp only [HeaderOk] at old ⊢
    rw [header r mem _ (by omega), header r mem _ (by omega), header r mem _ (by omega)]
    exact old
  · intro a i small
    rw [same _ (owns_count small)]
    exact inv.memory.counts a i small

/-- One step of the client. -/
theorem HeapStep.inv (step : HeapStep o s s') (own : o.Ok s.heap.vaddr.btmpBytesLen)
    (inv : ∃ A, HeapInv o s.heap A ∧ A.live = s.live) :
    (∃ A, HeapInv o s'.heap A ∧ A.live = s'.live) ∧ s'.heap.vaddr.btmpBytesLen = s.heap.vaddr.btmpBytesLen := by
  obtain ⟨A, inv, live⟩ := inv
  cases step with
  | malloc call =>
    obtain ⟨rfl, move⟩ | ⟨pos, A', move, live'⟩ := sysMalloc_gave inv own call
    · exact ⟨⟨A, move.inv, by rw [if_pos rfl]; exact live⟩, move.len⟩
    · exact ⟨⟨A', move.inv, by rw [if_neg pos, live', live]⟩, move.len⟩
  | free held call =>
    simp only at live
    rw [← live] at held
    obtain ⟨h', done, A', move, live'⟩ := sysFree_took inv own held
    rw [call] at done
    cases done
    exact ⟨⟨A', move.inv, by rw [live', live]⟩, move.len⟩
  | use held only => exact ⟨⟨A, inv.use own (live ▸ held) only, live⟩, rfl⟩

end Sound

end Sparrow
