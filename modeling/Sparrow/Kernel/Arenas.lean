import Sparrow.Kernel.Heap
import Mathlib.Tactic.IntervalCases
import Mathlib.Data.List.Nodup

/-!
# What the heap is

The heap as a client sees it, without memory: runs of pages, each of them an arena, the
free blocks of each size class and the blocks handed out. `Arenas.Ok` is what makes it a
heap; each of the six things `sys_malloc` and `sys_free` do to it keeps this. How memory
shows such a heap is `Shows` of `Kernel.HeapInv`.
-/

namespace Sparrow
set_option autoImplicit false

/-- The block size of class `i`. -/
def blockSize (i : Nat) : Nat := 16 * 2 ^ i

/-- How many blocks of class `i` one arena has. -/
def perArena (i : Nat) : Nat := (pgSize - arenaSize) / blockSize i

/-- The `j`-th block of an arena of class `i` at `a`. -/
def blockAt (a i j : Nat) : Nat := a + arenaSize + j * blockSize i

/-- `b` is a block of an arena of class `i` at `a`. -/
def IsBlock (a i b : Nat) : Prop := ∃ j, j < perArena i ∧ b = blockAt a i j

/-- A run of pages; `cls` is `none` for a large arena. -/
structure PageRun where
  addr : Nat
  pages : Nat
  cls : Option Nat
  deriving DecidableEq

def PageRun.Apart (r r' : PageRun) : Prop := r.addr + r.pages * pgSize ≤ r'.addr ∨ r'.addr + r'.pages * pgSize ≤ r.addr

theorem PageRun.Apart.symm {r r' : PageRun} (h : r.Apart r') : r'.Apart r := Or.symm h

structure Arenas where
  runs : List PageRun
  free : Nat → List Nat
  live : List (Nat × Nat)

/-- There is an arena of class `i` at `a`. -/
def Arenas.Small (A : Arenas) (a i : Nat) : Prop := ⟨a, 1, some i⟩ ∈ A.runs

/-- There is a large arena of `n` pages at `a`. -/
def Arenas.Large (A : Arenas) (a n : Nat) : Prop := ⟨a, n, none⟩ ∈ A.runs

/-- The block starts at `p`. -/
def Arenas.Live (A : Arenas) (p : Nat) : Prop := p ∈ A.live.map Prod.fst

/-- The run lies in the pages `len` bytes of bitmap describe from `start` on. -/
structure PageRun.Inside (r : PageRun) (start len : Nat) : Prop where
  aligned : r.addr % pgSize = 0
  pages : 0 < r.pages
  low : start ≤ r.addr
  high : r.addr + r.pages * pgSize ≤ start + 8 * len * pgSize

structure Arenas.Ok (A : Arenas) (start len : Nat) : Prop where
  inside : ∀ r ∈ A.runs, r.Inside start len
  apart : A.runs.Pairwise PageRun.Apart
  small : ∀ r ∈ A.runs, ∀ i, r.cls = some i → i < descCnt ∧ r.pages = 1
  nodup : ∀ i, (A.free i).Nodup
  freeIn : ∀ i b, b ∈ A.free i → ∃ a, A.Small a i ∧ IsBlock a i b
  split : ∀ a i b, A.Small a i → IsBlock a i b → (b ∈ A.free i ↔ ¬ A.Live b)
  liveIn : ∀ p size, (p, size) ∈ A.live →
    (∃ a i, A.Small a i ∧ IsBlock a i p ∧ size ≤ blockSize i) ∨
      ∃ a n, A.Large a n ∧ p = a + arenaSize ∧ size + arenaSize ≤ n * pgSize ∧ 1024 < size
  liveNodup : (A.live.map Prod.fst).Nodup

section Geometry

variable {a a' i i' j j' b b' : Nat}

theorem blockSize_ge (i : Nat) : 16 ≤ blockSize i := by
  have := Nat.one_le_two_pow (n := i)
  simp only [blockSize]
  omega

theorem perArena_mul_le (i : Nat) : perArena i * blockSize i ≤ 4084 := Nat.div_mul_le_self _ _

theorem perArena_le (i : Nat) : perArena i ≤ 255 := by
  have := perArena_mul_le i
  have := blockSize_ge i
  have := Nat.mul_le_mul_left (perArena i) this
  omega

theorem perArena_pos (lt : i < descCnt) : 0 < perArena i := by
  simp only [descCnt] at lt
  interval_cases i <;> decide

/-- A block lies in the page of its arena, past the header. -/
theorem IsBlock.bounds (h : IsBlock a i b) : a + 12 ≤ b ∧ b + blockSize i ≤ a + 4096 := by
  obtain ⟨j, lt, rfl⟩ := h
  have whole := perArena_mul_le i
  have := Nat.mul_le_mul_right (blockSize i) (Nat.succ_le_of_lt lt)
  rw [Nat.succ_mul] at this
  simp only [blockAt, arenaSize]
  omega

theorem IsBlock.arena (h : IsBlock a i b) (aligned : a % pgSize = 0) : block2arena b = a := by
  have := h.bounds
  have := blockSize_ge i
  simp only [block2arena, pgSize] at *
  omega

theorem blockAt_inj (h : blockAt a i j = blockAt a i j') : j = j' := by
  have := blockSize_ge i
  simp only [blockAt] at h
  exact Nat.eq_of_mul_eq_mul_right (by omega) (Nat.add_left_cancel h)

/-- Two blocks of one arena do not overlap. -/
theorem IsBlock.disjoint (h : IsBlock a i b) (h' : IsBlock a i b') (ne : b ≠ b') :
    b + blockSize i ≤ b' ∨ b' + blockSize i ≤ b := by
  obtain ⟨j, -, rfl⟩ := h
  obtain ⟨j', -, rfl⟩ := h'
  have : j ≠ j' := fun e => ne (by rw [e])
  simp only [blockAt]
  rcases Nat.lt_or_gt_of_ne this with lt | lt
  · have := Nat.mul_le_mul_right (blockSize i) (Nat.succ_le_of_lt lt)
    rw [Nat.succ_mul] at this
    omega
  · have := Nat.mul_le_mul_right (blockSize i) (Nat.succ_le_of_lt lt)
    rw [Nat.succ_mul] at this
    omega

end Geometry

/-! What `sys_malloc` and `sys_free` do. -/

def Arenas.setFree (A : Arenas) (i : Nat) (L : List Nat) : Arenas :=
  { A with free := fun k => if k = i then L else A.free k }

/-- The first free block of class `i` is handed out; `L` are the others. -/
def Arenas.take (A : Arenas) (i b : Nat) (L : List Nat) (size : Nat) : Arenas :=
  { A.setFree i L with live := (b, size) :: A.live }

/-- A block of class `i` comes back. -/
def Arenas.give (A : Arenas) (i b : Nat) : Arenas :=
  { A.setFree i (A.free i ++ [b]) with live := A.live.filter fun x => x.1 ≠ b }

/-- A new arena of class `i`, which had no free block. -/
def Arenas.addSmall (A : Arenas) (a i : Nat) : Arenas :=
  { A.setFree i ((List.range (perArena i)).map (blockAt a i)) with runs := ⟨a, 1, some i⟩ :: A.runs }

/-- A large arena, handed out at once. -/
def Arenas.addLarge (A : Arenas) (a n size : Nat) : Arenas :=
  { A with runs := ⟨a, n, none⟩ :: A.runs, live := (a + arenaSize, size) :: A.live }

/-- An arena of class `i` whose blocks are all free is given up. -/
def Arenas.dropSmall (A : Arenas) (a i : Nat) : Arenas :=
  { A.setFree i ((A.free i).filter fun b => block2arena b ≠ a) with runs := A.runs.erase ⟨a, 1, some i⟩ }

def Arenas.dropLarge (A : Arenas) (a n : Nat) : Arenas :=
  { A with runs := A.runs.erase ⟨a, n, none⟩, live := A.live.filter fun x => x.1 ≠ a + arenaSize }

section Ok

variable {A : Arenas} {start len a a' i i' b b' n size : Nat} {r r' : PageRun} {L : List Nat}

theorem Arenas.Ok.eq_or_apart (ok : A.Ok start len) (hr : r ∈ A.runs) (hr' : r' ∈ A.runs) : r = r' ∨ r.Apart r' := by
  have : Std.Symm PageRun.Apart := ⟨fun _ _ => PageRun.Apart.symm⟩
  by_cases e : r = r'
  · exact .inl e
  · exact .inr (ok.apart.forall hr hr' e)

/-- A page belongs to one run. -/
theorem Arenas.Ok.eq_of_addr (ok : A.Ok start len) (hr : r ∈ A.runs) (hr' : r' ∈ A.runs) (same : r.addr = r'.addr) :
    r = r' := by
  refine (ok.eq_or_apart hr hr').resolve_right fun apart => ?_
  have := (ok.inside r hr).pages
  have := (ok.inside r' hr').pages
  simp only [PageRun.Apart, pgSize] at apart
  omega

theorem Arenas.Ok.cls_lt (ok : A.Ok start len) (h : A.Small a i) : i < descCnt := (ok.small _ h i rfl).1

theorem Arenas.Ok.small_unique (ok : A.Ok start len) (h : A.Small a i) (h' : A.Small a i') : i = i' := by
  have := ok.eq_of_addr h h' rfl
  simpa using this

theorem Arenas.Ok.aligned (ok : A.Ok start len) (h : A.Small a i) : a % pgSize = 0 := (ok.inside _ h).aligned

/-- Two arenas of blocks are one, or lie in different pages. -/
theorem Arenas.Ok.small_apart (ok : A.Ok start len) (h : A.Small a i) (h' : A.Small a' i') :
    a = a' ∨ a + 4096 ≤ a' ∨ a' + 4096 ≤ a := by
  rcases ok.eq_or_apart h h' with e | apart
  · exact .inl (congrArg PageRun.addr e)
  · right
    simpa [PageRun.Apart, pgSize] using apart

/-- Two blocks do not overlap. -/
theorem Arenas.Ok.blocks_disjoint (ok : A.Ok start len) (h : A.Small a i) (h' : A.Small a' i') (hb : IsBlock a i b)
    (hb' : IsBlock a' i' b') (ne : b ≠ b') : b + blockSize i ≤ b' ∨ b' + blockSize i' ≤ b := by
  rcases ok.small_apart h h' with rfl | apart
  · obtain rfl := ok.small_unique h h'
    exact hb.disjoint hb' ne
  · have := hb.bounds
    have := hb'.bounds
    omega

/-- The class and the arena of a block. -/
theorem Arenas.Ok.block_unique (ok : A.Ok start len) (h : A.Small a i) (h' : A.Small a' i') (hb : IsBlock a i b)
    (hb' : IsBlock a' i' b) : a = a' ∧ i = i' := by
  have e : a = a' := by rw [← hb.arena (ok.aligned h), ← hb'.arena (ok.aligned h')]
  subst e
  exact ⟨rfl, ok.small_unique h h'⟩

theorem Arenas.Ok.free_not_live (ok : A.Ok start len) (mem : b ∈ A.free i) : ¬ A.Live b := by
  obtain ⟨a, small, isBlock⟩ := ok.freeIn i b mem
  exact (ok.split a i b small isBlock).1 mem

/-- A block is not what a large arena hands out. -/
theorem IsBlock.ne_large (hb : IsBlock a i b) (apart : (PageRun.mk a 1 (some i)).Apart r) (pages : 0 < r.pages) :
    b ≠ r.addr + arenaSize := by
  have bounds := hb.bounds
  have := blockSize_ge i
  simp only [PageRun.Apart, pgSize, arenaSize] at *
  omega

theorem Arenas.Ok.block_ne_large (ok : A.Ok start len) (h : A.Small a i) (hb : IsBlock a i b) (large : A.Large a' n) :
    b ≠ a' + arenaSize := by
  rcases ok.eq_or_apart h large with e | apart
  · cases e
  · exact hb.ne_large apart (ok.inside _ large).pages

theorem Arenas.Ok.take (ok : A.Ok start len) (first : A.free i = b :: L) (le : size ≤ blockSize i) :
    (A.take i b L size).Ok start len := by
  have nodup := ok.nodup i
  rw [first, List.nodup_cons] at nodup
  have mem : b ∈ A.free i := by simp [first]
  obtain ⟨a, small, isBlock⟩ := ok.freeIn i b mem
  have notLive := ok.free_not_live mem
  refine ⟨ok.inside, ok.apart, ok.small, ?_, ?_, ?_, ?_, ?_⟩
  · intro k
    show (if k = i then L else A.free k).Nodup
    split
    · exact nodup.2
    · exact ok.nodup k
  · intro k c hc
    change c ∈ (if k = i then L else A.free k) at hc
    split at hc
    · rename_i e
      subst e
      exact ok.freeIn k c (by rw [first]; exact List.mem_cons_of_mem _ hc)
    · exact ok.freeIn k c hc
  · intro a' k c small' isBlock'
    show c ∈ (if k = i then L else A.free k) ↔ ¬ c ∈ b :: A.live.map Prod.fst
    have old := ok.split a' k c small' isBlock'
    simp only [List.mem_cons, not_or]
    split
    · rename_i e
      subst e
      rw [first, List.mem_cons] at old
      constructor
      · intro hc
        exact ⟨fun e => nodup.1 (e ▸ hc), old.1 (.inr hc)⟩
      · intro hc
        exact (old.2 hc.2).resolve_left hc.1
    · rename_i ne
      constructor
      · intro hc
        refine ⟨fun e => ?_, old.1 hc⟩
        subst e
        exact ne (ok.block_unique small' small isBlock' isBlock).2
      · intro hc
        exact old.2 hc.2
  · intro p s hp
    rw [show (A.take i b L size).live = (b, size) :: A.live from rfl, List.mem_cons] at hp
    rcases hp with e | hp
    · cases e
      exact .inl ⟨a, i, small, isBlock, le⟩
    · exact ok.liveIn p s hp
  · exact List.nodup_cons.2 ⟨notLive, ok.liveNodup⟩

/-- The other blocks stay handed out when one comes back. -/
theorem mem_without {live : List (Nat × Nat)} {p q : Nat} :
    q ∈ (live.filter fun x => x.1 ≠ p).map Prod.fst ↔ q ∈ live.map Prod.fst ∧ q ≠ p := by
  simp only [List.mem_map, List.mem_filter, decide_eq_true_eq]
  constructor
  · rintro ⟨x, ⟨mem, ne⟩, rfl⟩
    exact ⟨⟨x, mem, rfl⟩, ne⟩
  · rintro ⟨⟨x, mem, rfl⟩, ne⟩
    exact ⟨x, ⟨mem, ne⟩, rfl⟩

theorem nodup_without {live : List (Nat × Nat)} {p : Nat} (nodup : (live.map Prod.fst).Nodup) :
    ((live.filter fun x => x.1 ≠ p).map Prod.fst).Nodup :=
  nodup.sublist (List.filter_sublist.map _)

theorem Arenas.Ok.give (ok : A.Ok start len) (h : A.Small a i) (hb : IsBlock a i b) (live : A.Live b) :
    (A.give i b).Ok start len := by
  have notFree : b ∉ A.free i := fun mem => ok.free_not_live mem live
  refine ⟨ok.inside, ok.apart, ok.small, ?_, ?_, ?_, ?_, nodup_without ok.liveNodup⟩
  · intro k
    show (if k = i then A.free i ++ [b] else A.free k).Nodup
    split
    · exact List.nodup_append.2 ⟨ok.nodup i, by simp, by rintro x hx y hy rfl; exact notFree (by simp_all)⟩
    · exact ok.nodup k
  · intro k c hc
    change c ∈ (if k = i then A.free i ++ [b] else A.free k) at hc
    split at hc
    · rename_i e
      subst e
      rw [List.mem_append, List.mem_singleton] at hc
      rcases hc with hc | rfl
      · exact ok.freeIn k c hc
      · exact ⟨a, h, hb⟩
    · exact ok.freeIn k c hc
  · intro a' k c small' isBlock'
    show c ∈ (if k = i then A.free i ++ [b] else A.free k) ↔
      ¬ c ∈ (A.live.filter fun x => x.1 ≠ b).map Prod.fst
    have old := ok.split a' k c small' isBlock'
    rw [mem_without, not_and_or, not_not]
    split
    · rename_i e
      subst e
      rw [List.mem_append, List.mem_singleton]
      exact or_congr old Iff.rfl
    · rename_i ne
      have other : c ≠ b := by
        rintro rfl
        exact ne (ok.block_unique small' h isBlock' hb).2
      simp only [other, or_false]
      exact old
  · intro p s hp
    exact ok.liveIn p s (List.mem_of_mem_filter hp)

/-- A block that is handed out lies in one of the runs. -/
theorem Arenas.Ok.live_inside (ok : A.Ok start len) (live : A.Live b) :
    ∃ r ∈ A.runs, r.addr ≤ b ∧ b < r.addr + r.pages * pgSize := by
  simp only [Arenas.Live, List.mem_map] at live
  obtain ⟨⟨p, s⟩, mem, rfl⟩ := live
  rcases ok.liveIn p s mem with ⟨a, i, small, isBlock, -⟩ | ⟨a, n, large, rfl, -⟩
  · have := isBlock.bounds
    have := blockSize_ge i
    exact ⟨_, small, by simp only [pgSize]; omega⟩
  · have := (ok.inside _ large).pages
    exact ⟨_, large, by simp only [pgSize, arenaSize] at *; omega⟩

/-- Nothing that is handed out lies in a fresh run. -/
theorem Arenas.Ok.fresh_not_live (ok : A.Ok start len) (fresh : ∀ r' ∈ A.runs, r.Apart r') (low : r.addr ≤ b)
    (high : b < r.addr + r.pages * pgSize) : ¬ A.Live b := by
  intro live
  obtain ⟨r', mem, low', high'⟩ := ok.live_inside live
  rcases fresh r' mem with h | h <;> omega

theorem mem_newBlocks {c : Nat} : c ∈ (List.range (perArena i)).map (blockAt a i) ↔ IsBlock a i c := by
  simp only [List.mem_map, List.mem_range, IsBlock]
  exact ⟨fun ⟨j, lt, e⟩ => ⟨j, lt, e.symm⟩, fun ⟨j, lt, e⟩ => ⟨j, lt, e.symm⟩⟩

theorem nodup_newBlocks : ((List.range (perArena i)).map (blockAt a i)).Nodup :=
  List.Nodup.map (fun _ _ => blockAt_inj) List.nodup_range

theorem Arenas.Ok.addSmall (ok : A.Ok start len) (none : A.free i = []) (lt : i < descCnt)
    (inside : (PageRun.mk a 1 (some i)).Inside start len) (fresh : ∀ r' ∈ A.runs, (PageRun.mk a 1 (some i)).Apart r') :
    (A.addSmall a i).Ok start len := by
  have unused : ∀ c, IsBlock a i c → ¬ A.Live c := by
    intro c hc
    have := hc.bounds
    have := blockSize_ge i
    exact ok.fresh_not_live fresh (by simp only; omega) (by simp only [pgSize]; omega)
  have small : ∀ a' k, (A.addSmall a i).Small a' k ↔ a' = a ∧ k = i ∨ A.Small a' k := by
    intro a' k
    simp [Arenas.Small, Arenas.addSmall]
  refine ⟨?_, List.pairwise_cons.2 ⟨fresh, ok.apart⟩, ?_, ?_, ?_, ?_, ?_, ok.liveNodup⟩
  · exact List.forall_mem_cons.2 ⟨inside, ok.inside⟩
  · refine List.forall_mem_cons.2 ⟨?_, ok.small⟩
    intro k e
    cases e
    exact ⟨lt, rfl⟩
  · intro k
    show (if k = i then _ else A.free k).Nodup
    split
    · exact nodup_newBlocks
    · exact ok.nodup k
  · intro k c hc
    change c ∈ (if k = i then _ else A.free k) at hc
    split at hc
    · rename_i e
      subst e
      exact ⟨a, (small a k).2 (.inl ⟨rfl, rfl⟩), mem_newBlocks.1 hc⟩
    · obtain ⟨a', h, hb⟩ := ok.freeIn k c hc
      exact ⟨a', (small a' k).2 (.inr h), hb⟩
  · intro a' k c h hb
    show c ∈ (if k = i then _ else A.free k) ↔ ¬ A.Live c
    rcases (small a' k).1 h with ⟨rfl, rfl⟩ | h
    · rw [if_pos rfl, mem_newBlocks]
      exact ⟨fun _ => unused c hb, fun _ => hb⟩
    · have old := ok.split a' k c h hb
      split
      · rename_i e
        subst e
        rw [none] at old
        have live : A.Live c := by simpa using old
        rw [mem_newBlocks]
        exact ⟨fun new => absurd live (unused c new), fun new => absurd live new⟩
      · exact old
  · intro p s hp
    rcases ok.liveIn p s hp with ⟨a', k, h, rest⟩ | ⟨a', m, h, rest⟩
    · exact .inl ⟨a', k, (small a' k).2 (.inr h), rest⟩
    · exact .inr ⟨a', m, List.mem_cons_of_mem _ h, rest⟩

theorem Arenas.Ok.addLarge (ok : A.Ok start len) (inside : (PageRun.mk a n none).Inside start len)
    (fresh : ∀ r' ∈ A.runs, (PageRun.mk a n none).Apart r') (le : size + arenaSize ≤ n * pgSize ∧ 1024 < size) :
    (A.addLarge a n size).Ok start len := by
  have small : ∀ a' k, (A.addLarge a n size).Small a' k ↔ A.Small a' k := by
    intro a' k
    simp [Arenas.Small, Arenas.addLarge]
  have pages := inside.pages
  have unused : ¬ A.Live (a + arenaSize) :=
    ok.fresh_not_live fresh (by simp only; omega) (by simp only [pgSize, arenaSize] at *; omega)
  refine ⟨?_, List.pairwise_cons.2 ⟨fresh, ok.apart⟩, ?_, ok.nodup, ?_, ?_, ?_, ?_⟩
  · exact List.forall_mem_cons.2 ⟨inside, ok.inside⟩
  · refine List.forall_mem_cons.2 ⟨?_, ok.small⟩
    intro k e
    cases e
  · intro k c hc
    obtain ⟨a', h, hb⟩ := ok.freeIn k c hc
    exact ⟨a', (small a' k).2 h, hb⟩
  · intro a' k c h hb
    rw [small] at h
    show c ∈ A.free k ↔ ¬ c ∈ (a + arenaSize) :: A.live.map Prod.fst
    rw [List.mem_cons, not_or]
    have old := ok.split a' k c h hb
    exact old.trans ⟨fun notLive => ⟨hb.ne_large (fresh _ h).symm pages, notLive⟩, And.right⟩
  · intro p s hp
    rw [show (A.addLarge a n size).live = (a + arenaSize, size) :: A.live from rfl, List.mem_cons] at hp
    rcases hp with e | hp
    · cases e
      exact .inr ⟨a, n, List.mem_cons_self, rfl, le⟩
    · rcases ok.liveIn p s hp with ⟨a', k, h, rest⟩ | ⟨a', m, h, rest⟩
      · exact .inl ⟨a', k, (small a' k).2 h, rest⟩
      · exact .inr ⟨a', m, List.mem_cons_of_mem _ h, rest⟩
  · exact List.nodup_cons.2 ⟨unused, ok.liveNodup⟩

/-- The runs that are left when one is given up. -/
theorem Arenas.Ok.mem_erase (ok : A.Ok start len) {r' : PageRun} : r' ∈ A.runs.erase r ↔ r' ≠ r ∧ r' ∈ A.runs := by
  have nodup : A.runs.Nodup := by
    refine ok.apart.imp_of_mem fun {x y} hx hy apart e => ?_
    subst e
    have := (ok.inside _ hx).pages
    simp only [PageRun.Apart, pgSize] at apart
    omega
  exact nodup.mem_erase_iff

theorem Arenas.Ok.dropSmall (ok : A.Ok start len) (h : A.Small a i) (all : ∀ b, IsBlock a i b → b ∈ A.free i) :
    (A.dropSmall a i).Ok start len := by
  have runs : ∀ r', r' ∈ (A.dropSmall a i).runs ↔ r' ≠ ⟨a, 1, some i⟩ ∧ r' ∈ A.runs := fun r' => ok.mem_erase
  have other : ∀ a' k, (A.dropSmall a i).Small a' k → a' ≠ a ∧ A.Small a' k := by
    intro a' k h'
    obtain ⟨ne, mem⟩ := (runs _).1 h'
    refine ⟨?_, mem⟩
    rintro rfl
    exact ne (by rw [ok.small_unique mem h])
  have page : ∀ a' k c, A.Small a' k → IsBlock a' k c → (block2arena c ≠ a ↔ a' ≠ a) := by
    intro a' k c h' hc
    rw [hc.arena (ok.aligned h')]
  refine ⟨fun r' hr => ok.inside r' ((runs r').1 hr).2, ok.apart.sublist List.erase_sublist,
    fun r' hr => ok.small r' ((runs r').1 hr).2, ?_, ?_, ?_, ?_, ok.liveNodup⟩
  · intro k
    show (if k = i then (A.free i).filter _ else A.free k).Nodup
    split
    · exact (ok.nodup i).filter _
    · exact ok.nodup k
  · intro k c hc
    change c ∈ (if k = i then (A.free i).filter _ else A.free k) at hc
    split at hc
    · rename_i e
      subst e
      rw [List.mem_filter, decide_eq_true_eq] at hc
      obtain ⟨a', h', hb⟩ := ok.freeIn k c hc.1
      have ne := (page a' k c h' hb).1 hc.2
      exact ⟨a', (runs _).2 ⟨by simp [ne], h'⟩, hb⟩
    · rename_i ne
      obtain ⟨a', h', hb⟩ := ok.freeIn k c hc
      exact ⟨a', (runs _).2 ⟨by simp [ne], h'⟩, hb⟩
  · intro a' k c left hb
    obtain ⟨ne, h'⟩ := other a' k left
    have old := ok.split a' k c h' hb
    show c ∈ (if k = i then (A.free i).filter _ else A.free k) ↔ ¬ A.Live c
    split
    · rename_i e
      subst e
      rw [List.mem_filter, decide_eq_true_eq, page a' k c h' hb]
      exact ⟨fun hc => old.1 hc.1, fun hc => ⟨old.2 hc, ne⟩⟩
    · exact old
  · intro p s hp
    rcases ok.liveIn p s hp with ⟨a', k, h', hb, le⟩ | ⟨a', m, h', rest⟩
    · refine .inl ⟨a', k, (runs _).2 ⟨?_, h'⟩, hb, le⟩
      rintro e
      cases e
      exact ok.free_not_live (all p hb) (List.mem_map.2 ⟨(p, s), hp, rfl⟩)
    · exact .inr ⟨a', m, (runs _).2 ⟨by simp, h'⟩, rest⟩

theorem Arenas.Ok.dropLarge (ok : A.Ok start len) (large : A.Large a n) : (A.dropLarge a n).Ok start len := by
  have runs : ∀ r', r' ∈ (A.dropLarge a n).runs ↔ r' ≠ ⟨a, n, none⟩ ∧ r' ∈ A.runs := fun r' => ok.mem_erase
  have small : ∀ a' k, (A.dropLarge a n).Small a' k ↔ A.Small a' k := by
    intro a' k
    exact (runs _).trans ⟨And.right, fun h => ⟨by simp, h⟩⟩
  refine ⟨fun r' hr => ok.inside r' ((runs r').1 hr).2, ok.apart.sublist List.erase_sublist,
    fun r' hr => ok.small r' ((runs r').1 hr).2, ok.nodup, ?_, ?_, ?_, nodup_without ok.liveNodup⟩
  · intro k c hc
    obtain ⟨a', h, hb⟩ := ok.freeIn k c hc
    exact ⟨a', (small a' k).2 h, hb⟩
  · intro a' k c h hb
    rw [small] at h
    show c ∈ A.free k ↔ ¬ c ∈ (A.live.filter fun x => x.1 ≠ a + arenaSize).map Prod.fst
    rw [mem_without, not_and_or, not_not]
    have other := ok.block_ne_large h hb large
    simp only [other, or_false]
    exact ok.split a' k c h hb
  · intro p s hp
    rw [show (A.dropLarge a n).live = A.live.filter fun x => x.1 ≠ a + arenaSize from rfl, List.mem_filter,
      decide_eq_true_eq] at hp
    rcases ok.liveIn p s hp.1 with ⟨a', k, h, rest⟩ | ⟨a', m, h, rfl, le⟩
    · exact .inl ⟨a', k, (small a' k).2 h, rest⟩
    · refine .inr ⟨a', m, (runs _).2 ⟨?_, h⟩, rfl, le⟩
      rintro e
      cases e
      exact hp.2 rfl

end Ok

end Sparrow
