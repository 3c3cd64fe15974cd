import Mathlib.Algebra.Group.Int.Defs
import Mathlib.Data.List.Range
import Mathlib.Data.List.Perm.Subperm
import Mathlib.Logic.Relation
import Sparrow.Kernel.Bitmap

/-!
# Process numbers

`allocate_pid` and `release_pid` of `thread/thread.c`. The numbers 1 to 1024 have a bit each
in an array of 128 bytes. As long as one of them is clear, `allocate_pid` hands out a number
no task has and sets just its bit. When all are set, the -1 of `bitmap_scan` goes on to
`bitmap_set` as the index 2^32 - 1, far behind the array (`allocatePid_iff`).
-/

namespace Sparrow.Pid
set_option autoImplicit false

/-- `struct pid_pool`; what follows the array of its bitmap is other memory. -/
structure PidPool where
  pidBitmap : Bitmap
  pidStart : Nat

/-- The value as a `uint32_t`. -/
def uint32 (x : Int) : Nat := (x % 2 ^ 32).toNat

/-- The `int` that `bitmap_scan` returns. -/
def scanResult : Option Nat → Int
  | none => -1
  | some i => i

/-- `pid_pool_init`. -/
def pidPoolInit (memory : Image) : PidPool := ⟨⟨128, fill memory 0 128 0#8⟩, 1⟩

/-- The index `allocate_pid` passes to `bitmap_set`. -/
def allocatedBit (pool : PidPool) : Nat := uint32 (scanResult (bitmapScan pool.pidBitmap 1))

/-- `allocate_pid`. A `pid_t` has 16 bits. -/
def allocatePid (pool : PidPool) : Nat × PidPool :=
  (uint32 (scanResult (bitmapScan pool.pidBitmap 1) + pool.pidStart) % 2 ^ 16,
    { pool with pidBitmap := bitmapSet pool.pidBitmap (allocatedBit pool) true })

/-- `release_pid`. -/
def releasePid (pool : PidPool) (pid : Nat) : PidPool :=
  { pool with pidBitmap := bitmapSet pool.pidBitmap (uint32 ((pid : Int) - pool.pidStart)) false }

/-- The pool, and the numbers of the live tasks. -/
structure Pids where
  pool : PidPool
  live : List Nat

/-- A task gets a number, or one that is over gives its number back. -/
inductive Event where
  | allocate
  | release (pid : Nat)

def act (s : Pids) : Event → Pids
  | .allocate => ⟨(allocatePid s.pool).2, (allocatePid s.pool).1 :: s.live⟩
  | .release pid => ⟨releasePid s.pool pid, s.live.erase pid⟩

/-- `thread_exit` releases the number of a task. -/
def Legal (s : Pids) : Event → Prop
  | .allocate => True
  | .release pid => pid ∈ s.live

/-- A run of the two functions; `ok` says which calls are looked at. -/
abbrev Run (ok : Pids → Event → Prop) : Pids → Pids → Prop :=
  Relation.ReflTransGen fun s s' => ∃ e, Legal s e ∧ ok s e ∧ act s e = s'

/-- The pool after `pid_pool_init`, without tasks. -/
def start (memory : Image) : Pids := ⟨pidPoolInit memory, []⟩

/-- One of the 1024 bits is clear. -/
def HasFree (s : Pids) : Prop := ∃ i, i < 1024 ∧ ¬ s.pool.pidBitmap.Set i

/-- Numbers are asked for while one is free. -/
def WhileFree (s : Pids) (e : Event) : Prop := e = .allocate → HasFree s

/-- `allocate_pid` hands out a number from 1 to 1024 that no live task has and sets just its
bit, or the number is none of these and nothing is stored outside the 128 bytes. -/
def AllocatesWell (s : Pids) : Prop :=
  ((1 ≤ (allocatePid s.pool).1 ∧ (allocatePid s.pool).1 ≤ 1024) ∧ (allocatePid s.pool).1 ∉ s.live ∧
    ∀ i, (allocatePid s.pool).2.pidBitmap.Set i ↔ i + 1 = (allocatePid s.pool).1 ∨ s.pool.pidBitmap.Set i) ∨
  (¬ (1 ≤ (allocatePid s.pool).1 ∧ (allocatePid s.pool).1 ≤ 1024) ∧ allocatedBit s.pool / 8 < 128)

/-- `release_pid` clears the bit of the number and no other. -/
def ReleasesWell (s : Pids) (pid : Nat) : Prop :=
  s.pool.pidBitmap.Set (pid - 1) ∧
    ∀ i, (releasePid s.pool pid).pidBitmap.Set i ↔ s.pool.pidBitmap.Set i ∧ i + 1 ≠ pid

/-- The bits are those of the live tasks, and the memory behind them is as it was. -/
structure Numbered (memory : Image) (s : Pids) : Prop where
  len : s.pool.pidBitmap.btmpBytesLen = 128
  first : s.pool.pidStart = 1
  nodup : s.live.Nodup
  range : ∀ pid ∈ s.live, 1 ≤ pid ∧ pid ≤ 1024
  bits : ∀ i, i < 1024 → (s.pool.pidBitmap.Set i ↔ i + 1 ∈ s.live)
  rest : ∀ i, 1024 ≤ i → (s.pool.pidBitmap.Set i ↔ Bitmap.Set ⟨128, memory⟩ i)

section Steps

variable {memory : Image} {s : Pids} {pid : Nat}

theorem uint32_natCast {i : Nat} (lt : i < 2 ^ 32) : uint32 i = i := by
  rw [uint32]
  omega

theorem numbered_start (memory : Image) : Numbered memory (start memory) := by
  have bytes : ∀ i, (start memory).pool.pidBitmap.Set i ↔ 1024 ≤ i ∧ Bitmap.Set ⟨128, memory⟩ i := by
    intro i
    simp only [Bitmap.Set, bitmapScanTest, start, pidPoolInit]
    by_cases inside : i < 1024
    · rw [fill_in (by omega) (by omega)]
      simp [Nat.not_le.2 inside]
    · rw [fill_out (by omega)]
      simp [Nat.not_lt.1 inside]
  refine ⟨rfl, rfl, List.nodup_nil, by simp [start], fun i lt => ?_, fun i ge => ?_⟩
  · rw [bytes]
    simp [start, Nat.not_le.2 lt]
  · rw [bytes]
    simp [ge]

/-- A free number is found: the first clear bit. -/
theorem Numbered.allocate_free (h : Numbered memory s) (free : HasFree s) :
    ∃ i, i < 1024 ∧ ¬ s.pool.pidBitmap.Set i ∧ allocatedBit s.pool = i ∧ (allocatePid s.pool).1 = i + 1 := by
  obtain ⟨j, lt, clear⟩ := free
  cases scan : bitmapScan s.pool.pidBitmap 1 with
  | none => exact absurd (bitmapScan_one_none scan j (by rw [h.len]; omega)) clear
  | some i =>
    obtain ⟨inside, isClear, -⟩ := bitmapScan_one_some scan
    rw [h.len] at inside
    have low : i < 1024 := by omega
    refine ⟨i, low, isClear, ?_, ?_⟩
    · rw [allocatedBit, scan]
      exact uint32_natCast (by omega)
    · rw [allocatePid, scan, h.first]
      show uint32 ((i : Int) + (1 : Nat)) % 2 ^ 16 = i + 1
      rw [show (i : Int) + (1 : Nat) = ((i + 1 : Nat) : Int) from rfl, uint32_natCast (by omega)]
      omega

/-- Without one the index is 2^32 - 1. -/
theorem Numbered.allocate_full (h : Numbered memory s) (full : ¬ HasFree s) :
    allocatedBit s.pool = 2 ^ 32 - 1 ∧ (allocatePid s.pool).1 = 0 := by
  have scan : bitmapScan s.pool.pidBitmap 1 = none := by
    cases scan : bitmapScan s.pool.pidBitmap 1 with
    | none => rfl
    | some i =>
      obtain ⟨inside, clear, -⟩ := bitmapScan_one_some scan
      rw [h.len] at inside
      exact absurd ⟨i, by omega, clear⟩ full
  rw [allocatedBit, allocatePid, scan, h.first]
  exact ⟨rfl, rfl⟩

theorem Numbered.allocate (h : Numbered memory s) (free : HasFree s) : Numbered memory (act s .allocate) := by
  obtain ⟨i, low, clear, bit, number⟩ := h.allocate_free free
  have bits : ∀ j, (act s .allocate).pool.pidBitmap.Set j ↔ j = i ∨ s.pool.pidBitmap.Set j := by
    intro j
    show (bitmapSet s.pool.pidBitmap (allocatedBit s.pool) true).Set j ↔ _
    rw [set_bitmapSet, bit]
    split <;> simp_all
  have live : (act s .allocate).live = (i + 1) :: s.live := by rw [← number]; rfl
  refine ⟨h.len, h.first, ?_, fun p mem => ?_, fun j lt => ?_, fun j ge => ?_⟩
  · rw [live, List.nodup_cons, ← h.bits i low]
    exact ⟨clear, h.nodup⟩
  · rw [live] at mem
    rcases List.mem_cons.1 mem with rfl | mem
    · omega
    · exact h.range p mem
  · rw [bits, live, h.bits j lt, List.mem_cons, Nat.add_right_cancel_iff]
  · rw [bits, h.rest j ge]
    have ne : j ≠ i := by omega
    simp [ne]

theorem Numbered.releasedBit (h : Numbered memory s) (mem : pid ∈ s.live) :
    uint32 ((pid : Int) - s.pool.pidStart) = pid - 1 := by
  obtain ⟨low, high⟩ := h.range pid mem
  rw [h.first, uint32]
  omega

theorem Numbered.releasesWell (h : Numbered memory s) (mem : pid ∈ s.live) : ReleasesWell s pid := by
  obtain ⟨low, high⟩ := h.range pid mem
  refine ⟨(h.bits _ (by omega)).2 (by rwa [Nat.sub_add_cancel low]), fun i => ?_⟩
  rw [releasePid, h.releasedBit mem, set_bitmapSet]
  split
  · simp only [reduceCtorEq, false_iff]
    omega
  · have ne : i + 1 ≠ pid := by omega
    simp [ne]

theorem Numbered.release (h : Numbered memory s) (mem : pid ∈ s.live) : Numbered memory (act s (.release pid)) := by
  obtain ⟨-, bits⟩ := h.releasesWell mem
  refine ⟨h.len, h.first, h.nodup.erase pid, fun p old => h.range p (List.mem_of_mem_erase old), fun i lt => ?_, fun i ge => ?_⟩
  · rw [show (act s (.release pid)).pool.pidBitmap = (releasePid s.pool pid).pidBitmap from rfl, bits, h.bits i lt]
    show _ ↔ i + 1 ∈ s.live.erase pid
    rw [h.nodup.mem_erase_iff]
    exact and_comm
  · rw [show (act s (.release pid)).pool.pidBitmap = (releasePid s.pool pid).pidBitmap from rfl, bits, h.rest i ge]
    have ne : i + 1 ≠ pid := by
      have := (h.range pid mem).2
      omega
    simp [ne]

/-- The numbers stay in order as long as one is free when one is asked for. -/
theorem Run.numbered {s' : Pids} (run : Run WhileFree s s') (h : Numbered memory s) : Numbered memory s' := by
  induction run with
  | refl => exact h
  | tail _ step ih =>
    obtain ⟨e, legal, free, rfl⟩ := step
    cases e with
    | allocate => exact ih.allocate (free rfl)
    | release pid => exact ih.release legal

theorem Numbered.allocatesWell_iff (h : Numbered memory s) : AllocatesWell s ↔ HasFree s := by
  constructor
  · intro well
    by_contra full
    obtain ⟨bit, number⟩ := h.allocate_full full
    rw [AllocatesWell, number, bit] at well
    omega
  · intro free
    obtain ⟨i, low, clear, bit, number⟩ := h.allocate_free free
    refine .inl ⟨by omega, ?_, fun j => ?_⟩
    · rw [number, ← h.bits i low]
      exact clear
    · rw [number, allocatePid, set_bitmapSet, bit, Nat.add_right_cancel_iff]
      split <;> simp_all

end Steps

/-- **Allocation of process numbers.** In every state such a run comes to, `allocate_pid` does
what it should exactly if a number is free, and `release_pid` clears just the bit of its
number. -/
theorem allocatePid_iff {memory : Image} {s : Pids} (run : Run WhileFree (start memory) s) :
    (AllocatesWell s ↔ HasFree s) ∧ ∀ pid ∈ s.live, ReleasesWell s pid :=
  have numbered := run.numbered (numbered_start memory)
  ⟨numbered.allocatesWell_iff, fun _ => numbered.releasesWell⟩

/-- Two numbers are handed out and the first is given back. -/
def secondLive : Pids := act (act (act (start fun _ => 0#8) .allocate) .allocate) (.release 1)

theorem allocatePid_iff_two : AllocatesWell secondLive ∧ secondLive.live = [2] ∧ ReleasesWell secondLive 2 := by
  have first : HasFree (start fun _ => 0#8) := ⟨0, by decide, by decide⟩
  have second : HasFree (act (start fun _ => 0#8) .allocate) := ⟨1, by decide, by decide⟩
  have one : (1 : Nat) ∈ (act (act (start fun _ => 0#8) .allocate) .allocate).live := by decide
  have run : Run WhileFree (start fun _ => 0#8) secondLive := by
    refine .tail (.tail (.tail .refl ⟨.allocate, trivial, fun _ => first, rfl⟩) ⟨.allocate, trivial, fun _ => second, rfl⟩)
      ⟨.release 1, one, ?_, rfl⟩
    intro h
    cases h
  obtain ⟨allocates, releases⟩ := allocatePid_iff run
  exact ⟨allocates.2 ⟨0, by decide, by decide⟩, by decide, releases 2 (by decide)⟩

/-- Numbers can be asked for until all 1024 are taken. -/
theorem exists_run (memory : Image) : ∀ k, k ≤ 1024 → ∃ s, Run WhileFree (start memory) s ∧ s.live.length = k := by
  intro k
  induction k with
  | zero => exact fun _ => ⟨start memory, .refl, rfl⟩
  | succ k ih =>
    intro le
    obtain ⟨s, run, len⟩ := ih (by omega)
    have h := run.numbered (numbered_start memory)
    have free : HasFree s := by
      by_contra full
      -- every number from 1 to 1024 is that of a live task
      have all : List.range' 1 1024 ⊆ s.live := by
        intro pid mem
        obtain ⟨low, high⟩ := List.mem_range'_1.1 mem
        have := (h.bits (pid - 1) (by omega)).1 (by
          by_contra clear
          exact full ⟨pid - 1, by omega, clear⟩)
        rwa [Nat.sub_add_cancel low] at this
      have nodup : (List.range' 1 1024).Nodup := List.nodup_range'
      have := (nodup.subperm all).length_le
      rw [List.length_range'] at this
      omega
    exact ⟨act s .allocate, .tail run ⟨.allocate, trivial, fun _ => free, rfl⟩, by simp [act, len]⟩

/-- When 1024 tasks are alive, the next one gets the number 0, and a bit half a gigabyte
behind the array is set. -/
theorem allocatePid_exhausted : ∃ s, Run (fun _ _ => True) (start fun _ => 0#8) s ∧ s.live.length = 1024 ∧ ¬ AllocatesWell s ∧
    (allocatePid s.pool).1 = 0 ∧ s.pool.pidBitmap.bits (2 ^ 29 - 1) = 0#8 ∧
    (allocatePid s.pool).2.pidBitmap.bits (2 ^ 29 - 1) = 0x80#8 := by
  obtain ⟨s, run, len⟩ := exists_run (fun _ => 0#8) 1024 (Nat.le_refl _)
  have h := run.numbered (numbered_start _)
  have full : ¬ HasFree s := by
    rintro ⟨i, lt, clear⟩
    have sub : s.live ⊆ (List.range' 1 1024).erase (i + 1) := fun pid mem => by
      obtain ⟨low, high⟩ := h.range pid mem
      have ne : pid ≠ i + 1 := fun e => clear ((h.bits i lt).2 (by rwa [← e]))
      refine (List.mem_erase_of_ne ne).2 (List.mem_range'_1.2 ?_)
      omega
    have := (h.nodup.subperm sub).length_le
    rw [List.length_erase_of_mem (List.mem_range'_1.2 (by omega)), List.length_range'] at this
    omega
  obtain ⟨bit, number⟩ := h.allocate_full full
  have clear : s.pool.pidBitmap.bits (2 ^ 29 - 1) = 0#8 := by
    apply BitVec.eq_of_getLsbD_eq
    intro j lt
    have rest := h.rest (8 * (2 ^ 29 - 1) + j) (by omega)
    simp only [Bitmap.Set, bitmapScanTest_eq_getLsbD, show (8 * (2 ^ 29 - 1) + j) / 8 = 2 ^ 29 - 1 by omega,
      show (8 * (2 ^ 29 - 1) + j) % 8 = j by omega] at rest
    simpa using rest
  have allowed : Run (fun _ _ => True) (start fun _ => 0#8) s := by
    refine Relation.ReflTransGen.mono ?_ _ _ run
    rintro _ _ ⟨e, legal, -, is⟩
    exact ⟨e, legal, trivial, is⟩
  refine ⟨s, allowed, len, fun well => full (h.allocatesWell_iff.1 well),
    number, clear, ?_⟩
  show (bitmapSet s.pool.pidBitmap (allocatedBit s.pool) true).bits (2 ^ 29 - 1) = 0x80#8
  rw [bit]
  simp only [bitmapSet, show (2 ^ 32 - 1) / 8 = 2 ^ 29 - 1 by decide, if_true, clear]
  rfl

end Sparrow.Pid
